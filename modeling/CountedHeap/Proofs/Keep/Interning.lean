import CountedHeap.Proofs.Keep.Allocation

/-!
# Interning keeps the terms

A string is made only if none with its content has been found, and it is looked for again when it has
been made: the emergency pass that makes room runs finalizers, and these may have interned the content.
Then the new cell is freed at once. Either way nothing but what the look-up asks for has changed.

* `Kept.enter`: the new string is entered.
* `Kept.giveUp`: the new string is given up, and the one that was found is counted.
* `Keeps.intern`: all of it.
-/

namespace CountedHeap

namespace Heap

variable {h h' h'' : Heap} {X : Multiset Handle} {r q : Handle} {n : ℕ} {b : Body} {t : Text}

theorem Mild.calm (hs : Mild h h') (hc : Calm h' h'') : Mild h h'' where
  sweeping := hc.sweeping.trans hs.sweeping
  key := hc.key.trans hs.key
  queue := hc.queue.trans hs.queue
  linked i hi := hc.linked i (hs.linked i hi)
  cells r n b hr := by
    obtain ⟨m, c, hr', hkind⟩ := hs.cells r n b hr
    obtain ⟨k, d, hr'', hkind'⟩ := hc.cells r m c hr'
    exact ⟨k, d, hr'', hkind'.trans hkind⟩
  tight ht := hc.tight (hs.tight ht)
  pace := hc.pace.trans hs.pace

/-- A count given back on a leaf queues nothing. -/
theorem Sound.release_leaf (hs : h.Sound) (hr : h.arena.Holds r n b) (hleaf : b.isComposite = false) :
    (h.release r).2 = false ∧ (h.release r).1.arena.members = h.arena.members := by
  rcases h.release_cases r with ⟨hdead, -⟩ | ⟨m, c, hr', hcases⟩
  · rw [show h.isLive r = true from hr.isLive] at hdead
    cases hdead
  obtain ⟨rfl, rfl⟩ := hr'.unique hr
  rcases hcases with ⟨-, he⟩ | ⟨-, -, _, _, _, he⟩ | ⟨-, hcomp, -⟩
  · rw [he]
    refine ⟨rfl, (hs.arena.threaded.congr ?_ ?_).members_eq⟩
    · rfl
    · exact linksAt_uncount
  · rw [he]
    refine ⟨rfl, (hs.arena.threaded.congr ?_ ?_).members_eq⟩
    · exact Arena.ends_release
    · exact Arena.linksAt_release.trans linksAt_uncount
  · rw [hleaf] at hcomp
    cases hcomp

/-- A leaf that was not there before gives a count back. -/
theorem Mild.release (hmild : Mild h h') (hs : h'.Sound) (hr : h'.arena.Holds r n b)
    (hleaf : b.isComposite = false) (hv : h.arena.Vacant r.index) : Mild h (h'.release r).1 := by
  obtain ⟨hsame, hmem⟩ := hs.release_leaf hr hleaf
  have hloose := (hs.release (r := r)).2
  refine ⟨hloose.sweeping.trans hmild.sweeping, hloose.key.trans hmild.key, ?_, fun i hi => ?_,
    fun q m c hq => ?_, fun ht => ?_, pace_release.trans hmild.pace⟩
  · rw [hmem, hmild.queue]
  · exact hloose.linked i (hmild.linked i hi)
  · obtain ⟨k, d, hq', hkind⟩ := hmild.cells q m c hq
    refine ⟨k, d, (holds_release_iff hr fun hi => ?_).mpr hq', hkind⟩
    exact hv q.generation (m, c) (hi ▸ hq)
  · have hnot : r.index ∉ (h'.release r).1.arena.members .allocated := by
      rw [hmem, hs.arena.mem_members, hs.arena.chain_eq_none hr hleaf]
      simp
    have hcore := core_release hr
    split at hcore <;>
      exact (hmild.tight ht).update hcore (fun j _ hj => by rwa [hmem] at hj)
        fun _ _ _ hi => absurd hi hnot

namespace Kept

variable {s : Prop} {P : Heap → Prop}

/-- A string is made. -/
theorem placeString (hk : Kept s P h X) : Kept s (Mild h) (h.place (.string t)).1
    (X + {(h.place (.string t)).2}) := by
  have hvalid : (Body.string t).Valid := by
    rintro p ⟨⟩
  refine ⟨⟨(hk.sound.arena.place hvalid).1, hk.sound.freeRoots, hk.sound.rootsFree⟩,
    mild_place hk.sound hvalid, fun hs => ?_⟩
  exact balanced_place (b := .string t) hk.sound (hk.balanced hs) (by simp [Body.refs])

theorem texts_placeString (hk : Kept s P h X) : (h.place (.string t)).1.arena.texts =
    Function.update h.arena.texts (h.place (.string t)).2 (some t) :=
  Arena.texts_place (vacant_place hk.sound) (core_place hk.sound)

/-- Nothing is known of the offsets of a new string. -/
theorem recalls_placeString (hk : Kept s P h X) (hc : h.Recalls) :
    (h.place (.string t)).1.Recalls := by
  refine hc.grow rfl rfl fun q t' hq => ?_
  have hne : q ≠ (h.place (.string t)).2 := by
    rintro rfl
    rw [Arena.texts_of_vacant (vacant_place hk.sound)] at hq
    cases hq
  rw [hk.texts_placeString, Function.update_of_ne hne, hq]

/-- A string is made whose content is not there, and is entered. -/
theorem enter (hP : Steady P) (hk : Kept s P h X)
    (hnone : (h.place (.string t)).1.interned? t.content = none) :
    Kept s P ((h.place (.string t)).1.enterString t.content (h.place (.string t)).2)
      (X + {(h.place (.string t)).2}) := by
  have hplaced := hk.placeString (t := t)
  have htexts := hk.texts_placeString (t := t)
  have hvacant := Arena.texts_of_vacant (vacant_place (b := .string t) hk.sound)
  refine ⟨⟨hplaced.sound.arena, hplaced.sound.freeRoots, hplaced.sound.rootsFree⟩,
    hP h _ ⟨?_, fun hi => ?_, fun hc => ?_⟩ hk.level,
    fun hs => (hplaced.balanced hs).of_core rfl rfl rfl⟩
  · obtain ⟨h₁, h₂, h₃, h₄, h₅, h₆, h₇⟩ := hplaced.level
    exact ⟨h₁, h₂, h₃, h₄, h₅, h₆, h₇⟩
  · refine hi.enter ?_ hvacant rfl htexts
    -- What could be found before could be found now.
    by_contra hfound
    obtain ⟨q, hq⟩ := Option.ne_none_iff_exists'.mp hfound
    obtain ⟨t', ht', hc⟩ := hi.interned?_eq_some.mp hq
    have hne : q ≠ (h.place (.string t)).2 := by
      rintro rfl
      rw [hvacant] at ht'
      cases ht'
    have ht'' : (h.place (.string t)).1.arena.texts q = some t' := by
      rw [htexts, Function.update_of_ne hne, ht']
    rw [← hc] at hnone
    exact interned?_ne_none (h := (h.place (.string t)).1)
      (hi.mem_candidates.mpr ⟨t', ht', rfl⟩) ht'' hnone
  · exact (hk.recalls_placeString hc).congr rfl rfl rfl

/-- Where the table is exact, a string that is made and given up again leaves no trace in it, and what
has been found was there before. -/
theorem giveUp_texts (hk : Kept s P h X) (hi : h.Interned)
    (hfound : (h.place (.string t)).1.interned? t.content = some q) :
    (((h.place (.string t)).1.retain q).release (h.place (.string t)).2).1.strings = h.strings ∧
      (((h.place (.string t)).1.retain q).release (h.place (.string t)).2).1.arena.texts =
        h.arena.texts ∧
      ∃ t', h.arena.texts q = some t' ∧ t'.content = t.content := by
  set made := (h.place (.string t)).2
  have hnew : h.arena.texts made = none := Arena.texts_of_vacant (vacant_place hk.sound)
  have hunnamed : ∀ hash, (hash, made) ∉ h.strings.entries := by
    intro hash hmem
    obtain ⟨t', ht', -⟩ := (hi.entries hash made).mp hmem
    rw [hnew] at ht'
    cases ht'
  have hplaced : (h.place (.string t)).1.arena.Holds made 1 (.string t) :=
    Arena.holds_place hk.sound.arena.free (.string t)
  obtain ⟨k, c, hq⟩ := Arena.isLive_iff.mp (live_of_interned hfound)
  -- The table does not name the new string, so this is not the one that has been found.
  have hne : made.index ≠ q.index := by
    intro he
    obtain rfl := hplaced.eq_of_index hq he
    exact hunnamed _ (hi.table.mem_candidates.mp (List.mem_of_find?_eq_some hfound))
  have hcore := core_retain hq
  have hmade : ((h.place (.string t)).1.retain q).arena.Holds made 1 (.string t) := by
    unfold Arena.Holds
    rwa [hcore, Function.update_of_ne hne]
  refine ⟨?_, ?_, ?_⟩
  · rw [strings_release hmade, if_pos rfl]
    have hstrings : ((h.place (.string t)).1.retain q).strings = h.strings := by
      rw [show (h.place (.string t)).1.retain q = (h.place (.string t)).1.retainAll [q] from rfl,
        retainAll_eq]
      rfl
    change ((((h.place (.string t)).1.retain q).strings).remove t.hash made).1 = h.strings
    rw [hstrings]
    exact hi.table.remove_of_not_mem hunnamed
  · have hreleased := core_release hmade
    rw [if_pos ⟨rfl, rfl⟩] at hreleased
    rw [Arena.texts_free hmade hreleased, Arena.texts_update hq hcore rfl, hk.texts_placeString,
      Function.update_idem, Function.update_eq_self_iff, hnew]
  · obtain ⟨t', ht', hc⟩ := interned?_text hfound
    rw [hk.texts_placeString, Function.update_of_ne (fun he => hne (congrArg _ he.symm))] at ht'
    exact ⟨t', ht', hc⟩

/-- A string is made and given up again, and one that has been found is counted. -/
theorem giveUp (hP : Steady P) (hk : Kept s P h X)
    (hfound : (h.place (.string t)).1.interned? t.content = some q) :
    (((h.place (.string t)).1.retain q).release (h.place (.string t)).2).2 = false ∧
      Kept s P (((h.place (.string t)).1.retain q).release (h.place (.string t)).2).1 (X + {q}) := by
  have hcounted : Kept s (Mild h) ((h.place (.string t)).1.retain q)
      (X + {(h.place (.string t)).2} + {q}) :=
    hk.placeString.retain (fun _ _ hc hs => hs.calm hc) fun _ => live_of_interned hfound
  have hplaced : (h.place (.string t)).1.arena.Holds (h.place (.string t)).2 1 (.string t) :=
    Arena.holds_place hk.sound.arena.free (.string t)
  obtain ⟨n, hmade⟩ := holds_retain hplaced q
  rw [add_right_comm] at hcounted
  refine ⟨(hcounted.sound.release_leaf hmade rfl).1, hcounted.sound.release.1,
    hP h _ ⟨hcounted.level.release hcounted.sound hmade rfl (vacant_place hk.sound), fun hi => ?_,
      fun hc => Recalls.release ?_⟩ hk.level,
    fun hs => (hcounted.balanced hs).release⟩
  · obtain ⟨hstrings, htexts, -⟩ := hk.giveUp_texts hi hfound
    exact hi.congr hstrings htexts
  · obtain ⟨k, c, hq⟩ := Arena.isLive_iff.mp (live_of_interned hfound)
    have hcells : (h.place (.string t)).1.retain q =
        { (h.place (.string t)).1 with arena := ((h.place (.string t)).1.retain q).arena } :=
      (retainAll_eq : (h.place (.string t)).1.retainAll [q] = _)
    refine (hk.recalls_placeString hc).congr ?_ ?_ (Arena.texts_update hq (core_retain hq) rfl)
    · rw [hcells]
    · rw [hcells]

end Kept

end Heap

namespace Engine.Keeps

variable {σ : Type} {E : Engine σ} {T : Terms σ} {w : World σ} {X : Multiset Handle}

theorem intern (K : E.Keeps T) {content : String} {isStatic : Bool} (hk : T.Holds w X) :
    Meets (E.intern content isStatic) w (fun _ w' => T.Holds w' X) (fun r w' =>
      T.Holds w' (X + {r}) ∧ (w.heap.finalizerKey = none → w'.heap.finalizerKey = none)) := by
  unfold Engine.intern Engine.alloc
  simp only [meets_bind, meets_surely, after_query]
  cases hi : w.heap.interned? content with
  | some q =>
    simp only [meets_bind, meets_surely, after_modifyHeap, meets_pure]
    refine ⟨hk.give fun _ hZ => hZ.retain (T.steady _) fun _ => Heap.live_of_interned hi, fun h0 => ?_⟩
    rw [show w.heap.retain q = w.heap.retainAll [q] from rfl, Heap.retainAll_eq]
    exact h0
  | none =>
    simp only [meets_bind, meets_surely]
    refine Meets.mono (K.reserve hk) (fun _ _ hk' => hk') fun _ w₁ hw₁ => ?_
    obtain ⟨hk₁, hsince⟩ := hw₁
    have hkey := T.since_key _ _ hsince
    simp only [after_change, after_query]
    cases hi₁ : (w₁.heap.place (.string ⟨content, isStatic⟩)).1.interned? content with
    | some q =>
      -- Giving the new cell up queues nothing and leaves the key alone.
      obtain ⟨hidle, hsame⟩ := Heap.Kept.giveUp (s := False) (X := 0)
        (P := fun h => h.finalizerKey = w₁.heap.finalizerKey) (fun _ _ hc he => hc.key.trans he)
        ⟨hk₁.sound, rfl, False.elim⟩ hi₁
      simp only [meets_bind, meets_surely, after_modifyHeap, Engine.release, after_bind, after_change,
        hidle, Bool.false_eq_true, if_false, after_pure, meets_pure]
      exact ⟨hk₁.give fun _ hZ => (hZ.giveUp (T.steady _) hi₁).2, fun h0 =>
        hsame.level.trans (hkey h0)⟩
    | none =>
      simp only [meets_bind, meets_surely, after_modifyHeap, meets_pure]
      exact ⟨hk₁.give fun _ hZ => hZ.enter (T.steady _) hi₁, hkey⟩

end Engine.Keeps

end CountedHeap
