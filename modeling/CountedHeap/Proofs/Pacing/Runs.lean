import CountedHeap.Proofs.Invariance
import CountedHeap.Proofs.Pacing.Recording
import CountedHeap.Proofs.Reclaim.Pace

/-!
# Passes come in time

Where no finalizer is installed, the trigger counter is what the record of drains and passes says: rounds of
drains are counted off it, and passes set it, whoever begins them. So a voluntary pass begins exactly at the
end of each round that has freed a cell and has left the counter used up.

* `Heap.Pace.Told`: a record tells the pace of passes.
* `Told.free`, `Told.spent`, `Told.exhausted`, `Told.reset`, …: one more entry.
* `Ticking`, `passTimed_ticking`, `loopTimed_ticking`: passes and drains.
* `Resting`, `timed_keeps`: operations.
* `Unarmed`, `Timed`: runs in which no finalizer is installed, and their records.
* `passes_in_time`: what the counter is after a run, and when passes have begun.
-/

namespace CountedHeap

open Heap (Fading Kept OutsidePass Shrinks Pace)

variable {σ β : Type} {host : Host σ} {fuel n live : ℕ} {c : Config} {l : List Beat} {p : Pace}

/-! ## One more entry -/

/-- A record tells the pace of passes, while `n` cells have been freed in a round that is under way. The
counter is right, and so is when passes have begun, as long as the counter stays within 64 bits. -/
structure Heap.Pace.Told (c : Config) (l : List Beat) (n : ℕ) (p : Pace) : Prop where
  config : p.config = c
  freed : p.freed = l.count .freed
  passes : p.passes = (l.filterMap Beat.live?).length
  round : freedInRound l = n
  intime : c.Fits l → p.trigger = c.counter l + (if c.voluntary then (n : ℤ) else 0) ∧ c.InTime l ∧
    ¬ c.Due l

namespace Heap.Pace.Told

theorem nil : (Heap.empty c).pace.Told c [] 0 where
  config := rfl
  freed := rfl
  passes := rfl
  round := rfl
  intime _ := by
    refine ⟨?_, Config.inTime_nil, Config.not_due_nil⟩
    rw [Config.counter_nil, Nat.cast_zero, ite_self, add_zero]
    rfl

/-- A drain frees a cell. -/
theorem free (hp : p.Told c l n) :
    Told c (l ++ [.freed]) (n + 1) { p with freed := p.freed + 1 } where
  config := hp.config
  freed := by simp [hp.freed]
  passes := by simp [hp.passes, Beat.live?]
  round := by simp [hp.round]
  intime hf := by
    obtain ⟨htrigger, hin, hdue⟩ := hp.intime hf.of_snoc
    refine ⟨?_, hin.snoc (iff_of_false (by simp) hdue), Config.not_due_snoc (by simp)⟩
    rw [Config.counter_freed]
    dsimp only
    rw [htrigger]
    split <;> push_cast <;> omega

/-- A pass begins that is not voluntary. -/
theorem begin (hp : p.Told c l n) : p.Told c (l ++ [.pass false]) n where
  config := hp.config
  freed := by simp [hp.freed]
  passes := by simp [hp.passes, Beat.live?]
  round := by simp [hp.round]
  intime hf := by
    obtain ⟨htrigger, hin, hdue⟩ := hp.intime hf.of_snoc
    refine ⟨?_, hin.snoc (iff_of_false (by simp) hdue), Config.not_due_snoc (by simp)⟩
    rw [Config.counter_snoc (e := .pass false) rfl (by simp)]
    exact htrigger

/-- A pass sets the counter. -/
theorem reset (hp : p.Told c l 0) :
    Told c (l ++ [.reset live]) 0 { p with trigger := c.nextTrigger live, passes := p.passes + 1 } where
  config := hp.config
  freed := by simp [hp.freed]
  passes := by simp [hp.passes, Beat.live?]
  round := by simp [hp.round]
  intime hf := by
    obtain ⟨-, hin, hdue⟩ := hp.intime hf.of_snoc
    refine ⟨?_, hin.snoc (iff_of_false (by simp) hdue), Config.not_due_snoc (by simp)⟩
    rw [Config.counter_reset, Nat.cast_zero, ite_self, add_zero]

/-- A round ends that is not counted off. -/
theorem idle (hp : p.Told c l n) (hn : n = 0 ∨ c.voluntary = false) :
    p.Told c (l ++ [.emptied]) 0 where
  config := hp.config
  freed := by simp [hp.freed]
  passes := by simp [hp.passes, Beat.live?]
  round := by simp
  intime hf := by
    obtain ⟨htrigger, hin, hdue⟩ := hp.intime hf.of_snoc
    refine ⟨?_, hin.snoc (iff_of_false (by simp) hdue), ?_⟩
    · rw [Config.counter_snoc (e := .emptied) rfl (by simp), htrigger]
      rcases hn with rfl | hv
      · rfl
      · simp [hv]
    · rw [Config.due_snoc, hp.round]
      rintro ⟨-, hv, hpos, -⟩
      rcases hn with rfl | hv'
      · exact absurd hpos (Nat.lt_irrefl 0)
      · rw [hv] at hv'
        cases hv'

variable {h : Heap}

/-- The counter once a round has been counted off. -/
theorem spend (hp : h.pace.Told c l n) (hv : c.voluntary = true) (hf : c.Fits (l ++ [.emptied])) :
    (h.spendTrigger n).trigger = c.counter l := by
  obtain ⟨hlow, hhigh⟩ := hf.emptied hv
  have htrigger : h.trigger = c.counter l + n := by
    have htold := (hp.intime hf.of_snoc).1
    rwa [if_pos hv] at htold
  unfold Heap.spendTrigger
  dsimp only
  rw [htrigger, add_sub_cancel_right]
  exact Int.bmod_eq_of_le (by simpa using hlow) (by simpa using hhigh)

/-- A round is counted off, and does not use the counter up. -/
theorem spent (hp : h.pace.Told c l n) (hv : c.voluntary = true) (hleft : 0 < (h.spendTrigger n).trigger) :
    (h.spendTrigger n).pace.Told c (l ++ [.emptied]) 0 where
  config := hp.config
  freed := hp.freed.trans (by simp)
  passes := hp.passes.trans (by simp [Beat.live?])
  round := by simp
  intime hf := by
    have htrigger := hp.spend hv hf
    obtain ⟨-, hin, hdue⟩ := hp.intime hf.of_snoc
    refine ⟨?_, hin.snoc (iff_of_false (by simp) hdue), ?_⟩
    · rw [Config.counter_snoc (e := .emptied) rfl (by simp), Nat.cast_zero, ite_self, add_zero]
      exact htrigger
    · rw [Config.due_snoc]
      rintro ⟨-, -, -, hover⟩
      rw [htrigger] at hleft
      exact absurd hleft (not_lt.mpr hover)

/-- A round is counted off and uses the counter up, so that a voluntary pass begins. -/
theorem exhausted (hp : h.pace.Told c l n) (hv : c.voluntary = true) (hn : n ≠ 0)
    (hover : (h.spendTrigger n).trigger ≤ 0) :
    (h.spendTrigger n).pace.Told c (l ++ [.emptied] ++ [.pass true]) 0 where
  config := hp.config
  freed := hp.freed.trans (by simp)
  passes := hp.passes.trans (by simp [Beat.live?])
  round := by
    rw [freedInRound_snoc, freedInRound_snoc]
    rfl
  intime hf := by
    have hf' := hf.of_snoc
    have htrigger := hp.spend hv hf'
    obtain ⟨-, hin, hdue⟩ := hp.intime hf'.of_snoc
    rw [htrigger] at hover
    have hnow : c.Due (l ++ [.emptied]) :=
      Config.due_snoc.mpr ⟨rfl, hv, by rw [hp.round]; exact Nat.pos_of_ne_zero hn, hover⟩
    refine ⟨?_, (hin.snoc (iff_of_false (by simp) hdue)).snoc (iff_of_true rfl hnow),
      Config.not_due_snoc (by simp)⟩
    rw [Config.counter_snoc (e := .pass true) rfl (by simp),
      Config.counter_snoc (e := .emptied) rfl (by simp), Nat.cast_zero, ite_self, add_zero]
    exact htrigger

end Heap.Pace.Told

/-! ## Drains and passes -/

section

variable {w : World (σ × List Beat)} {call : Caller (σ × List Beat)} {v : Bool} {i : ℕ} {o : PassOptions}

/-- A world in a drain, where no finalizer has been installed. -/
structure Ticking (c : Config) (n : ℕ) (w : World (σ × List Beat)) : Prop where
  fading : Fading False w.heap 0
  key : w.heap.finalizerKey = none
  told : w.heap.pace.Told c w.host.2 n

theorem Ticking.unfinalized (hw : Ticking c n w) : w.heap.Unfinalized :=
  Heap.unfinalized_of_key hw.key

/-- A turn frees the head of the queue. -/
theorem settleHead_ticking (hw : Ticking c n w) (hi : w.heap.arena.queue.head = some i) :
    After (settleHead call i) w fun d w' => d = .freed ∧
      Ticking c (n + 1) ⟨w'.heap, w'.host.1, w'.host.2 ++ [.freed]⟩ := by
  have hmem := hw.fading.mem_head hi
  obtain ⟨m, b, hr, -⟩ := hw.fading.kept.sound.arena.cell_of_mem hmem
  unfold settleHead
  rw [after_bind, after_query, Heap.headFinalizer_eq_none hw.unfinalized]
  refine after_change.mpr ⟨rfl, (hw.fading.leaveQueue hmem).1, ?_, ?_⟩
  · exact Shrinks.leaveQueue.key.trans hw.key
  · have hpace := Heap.pace_leaveQueue hr
    rw [show (w.heap.arena.handleAt i).index = i from rfl] at hpace
    dsimp only
    rw [hpace]
    exact hw.told.free

/-- A pass sets the counter once it has begun. -/
theorem bodyTimed_ticking (hk : Kept False (OutsidePass []) w.heap 0) (hkey : w.heap.finalizerKey = none)
    (htold : w.heap.pace.Told c (w.host.2 ++ [.pass v]) 0) :
    After (bodyTimed v call o) w fun m w' =>
      Ticking c 0 w' ∧ (m = 0 → OutsidePass [] w'.heap) := by
  have hu : w.heap.Unfinalized := Heap.unfinalized_of_key hkey
  have hconfig : w.heap.config = c := htold.config
  have hbody : After (passBody call o) ⟨w.heap, w.host.1, w.host.2 ++ [.pass v]⟩ _ :=
    passBody_fading hu.quiet hk
  unfold bodyTimed
  rw [after_bind, after_jot, after_bind]
  refine (hbody.and (passBody_pace hu)).mono ?_
  rintro m w' ⟨⟨⟨hf, -, hs⟩, hidle⟩, hhost, hpace⟩
  rw [after_bind, after_jot, after_pure]
  refine ⟨⟨hf, (Shrinks.beginPass.trans hs).key.trans hkey, ?_⟩, hidle⟩
  dsimp only at hpace ⊢
  rw [hpace, hhost, hconfig]
  exact htold.reset

/-- A pass sets the counter, and then has what it has queued worked off. -/
theorem passTimed_ticking {drain : Action (σ × List Beat) Unit} {Q : World (σ × List Beat) → Prop}
    (hk : Kept False (OutsidePass []) w.heap 0) (hkey : w.heap.finalizerKey = none)
    (htold : w.heap.pace.Told c (w.host.2 ++ [.pass v]) 0)
    (hidle : ∀ w', Ticking c 0 w' → OutsidePass [] w'.heap → Q w')
    (hdrain : ∀ w', Ticking c 0 w' → After drain w' fun _ w'' => Q w'') :
    After (passTimed v call drain o) w fun _ w' => Q w' := by
  unfold passTimed
  rw [after_bind]
  refine (bodyTimed_ticking hk hkey htold).mono ?_
  rintro m w' ⟨hw', hnone⟩
  split
  · rw [after_bind]
    exact (hdrain w' hw').mono fun _ _ hQ => after_pure.mpr hQ
  · rename_i hm
    exact after_pure.mpr (hidle w' hw' (hnone (Nat.eq_zero_of_not_pos hm)))

/-- A drain counts its rounds off, and begins a voluntary pass where this uses the counter up. -/
theorem loopTimed_ticking {inner : Caller (σ × List Beat)} (hw : Ticking c n w) :
    After (loopTimed call (passTimed true inner (pure ()) {}) fuel n) w fun _ w' =>
      Ticking c 0 w' ∧ w'.heap.arena.queue.head = none := by
  -- On the bound. From turn to turn, the count of the round that is under way is carried along.
  induction fuel generalizing w n with
  | zero => exact after_none.mpr trivial
  | succ fuel ih =>
    unfold loopTimed
    rw [after_bind, after_query]
    cases hhead : w.heap.arena.queue.head with
    | some i =>
      dsimp only
      rw [after_bind]
      refine (settleHead_ticking hw hhead).mono ?_
      rintro _ w' ⟨rfl, hw'⟩
      dsimp only
      rw [after_bind, after_jot]
      exact ih hw'
    | none =>
      dsimp only
      rw [after_bind, after_jot, after_bind, after_query]
      have hconfig : w.heap.config = c := hw.told.config
      rw [hconfig]
      split
      · rename_i hidle
        have hn : n = 0 ∨ c.voluntary = false := by simpa using hidle
        exact after_pure.mpr ⟨⟨hw.fading, hw.key, hw.told.idle hn⟩, hhead⟩
      · rename_i hbusy
        have hn : n ≠ 0 ∧ c.voluntary = true := by simpa using hbusy
        have hspent : Fading False (w.heap.spendTrigger n) 0 :=
          hw.fading.remark (.of_alike .refl rfl rfl rfl rfl rfl rfl)
        rw [after_bind, after_modifyHeap, after_bind, after_query]
        split
        · rename_i hover
          -- Between the two entries a pass is due that has not begun, so both are made at once.
          have htold : (w.heap.spendTrigger n).pace.Told c (w.host.2 ++ [.emptied] ++ [.pass true]) 0 :=
            hw.told.exhausted hn.2 hn.1 (of_decide_eq_true hover)
          have hpass : After (passTimed true inner (pure ()) {})
              ⟨w.heap.spendTrigger n, w.host.1, w.host.2 ++ [.emptied]⟩ fun _ w' => Ticking c 0 w' :=
            passTimed_ticking (kept_outsidePass hspent.kept hhead) hw.key htold (fun _ hw' _ => hw')
              fun _ hw' => after_pure.mpr hw'
          rw [after_bind]
          refine hpass.mono ?_
          rintro _ w' hw'
          rw [after_bind, after_query]
          split
          · exact ih hw'
          · rename_i hnone
            exact after_pure.mpr ⟨hw', by simpa using hnone⟩
        · rename_i hleft
          have hleft' : 0 < (w.heap.spendTrigger n).trigger :=
            not_le.mp fun hover => hleft (decide_eq_true hover)
          exact after_pure.mpr ⟨⟨hspent, hw.key, hw.told.spent hn.2 hleft'⟩, hhead⟩

end

/-! ## Operations -/

/-- What holds between operations if no finalizer has been installed. -/
structure Resting (c : Config) (s : σ × List Beat) (h : Heap) : Prop where
  idle : OutsidePass [] h
  key : h.finalizerKey = none
  told : h.pace.Told c s.2 0

theorem steady_resting (s : σ × List Beat) : Heap.Steady (Resting c s) := by
  intro h h' hc hr
  exact ⟨Heap.steady_outsidePass [] h h' hc hr.idle, hc.key.trans hr.key, hc.pace ▸ hr.told⟩

theorem timed_drain {w : World (σ × List Beat)} (hw : Ticking c 0 w) :
    After (Engine.timed host fuel).drain w fun _ w' => w'.heap.Sound ∧ Resting c w'.host w'.heap := by
  have haside : ∀ (h : Heap) (b : Bool), Heap.Remarked h { h with draining := b } :=
    fun _ _ => .of_alike .refl rfl rfl rfl rfl rfl rfl
  change After (drainTimed _ _ fuel) w _
  unfold drainTimed
  rw [after_bind, after_modifyHeap, after_bind]
  refine (loopTimed_ticking (w := ⟨{ w.heap with draining := true }, w.host⟩)
    ⟨hw.fading.remark (haside _ _), hw.key, hw.told⟩).mono ?_
  rintro _ w' ⟨hw', hhead⟩
  have hk := kept_outsidePass (hw'.fading.remark (haside _ false)).kept hhead
  exact after_modifyHeap.mpr ⟨hk.sound, hk.level, hw'.key, hw'.told⟩

theorem timed_keeps :
    (Engine.timed host fuel).Keeps ((Terms.lax (σ × List Beat)).among (Resting c) steady_resting) where
  release w X r hk := by
    obtain ⟨hs, hrest⟩ := lax_holds_iff.mp hk
    have hk' : Kept False (OutsidePass []) w.heap (0 + {r}) := ⟨hs, hrest.idle, False.elim⟩
    obtain ⟨hf, hfades⟩ := fading_release hk'
    have hkey : (w.heap.release r).1.finalizerKey = none := hfades.toShrinks.key.trans hrest.key
    have htold : (w.heap.release r).1.pace.Told c w.host.2 0 := Heap.pace_release (h := w.heap) ▸ hrest.told
    refine After.mono ?_ fun _ w' h => ⟨lax_holds_iff.mpr h, fun _ => h.2.key⟩
    unfold Engine.release
    rw [after_bind, after_change]
    split
    · exact timed_drain (w := ⟨(w.heap.release r).1, w.host⟩) ⟨hf, hkey, htold⟩
    · rename_i hr
      exact after_pure.mpr
        ⟨hf.kept.sound, (queue_release hs hrest.idle).2 (by simpa using hr), hkey, htold⟩
  collect w X o hk := by
    obtain ⟨hs, hrest⟩ := lax_holds_iff.mp hk
    refine After.mono ?_ fun _ w' h => ⟨lax_holds_iff.mpr h, fun _ => h.2.key⟩
    exact passTimed_ticking (Q := fun w' => w'.heap.Sound ∧ Resting c w'.host w'.heap)
      ⟨hs, hrest.idle, False.elim⟩ hrest.key hrest.told.begin
      (fun _ hw' hidle => ⟨hw'.fading.kept.sound, hidle, hw'.key, hw'.told⟩) fun _ => timed_drain

/-! ## Runs -/

/-- The runs in which no finalizer is installed. -/
inductive Unarmed (host : Host σ) (c : Config) : World σ → Prop where
  | start (s : σ) : Unarmed host c ⟨.empty c, s⟩
  | perform {β : Type} {op : Operation β} {fuel : ℕ} {w w' : World σ} {answer : Except HeapError β} :
      Unarmed host c w → ¬ op.installs →
      ((Engine.top host fuel).perform op).run w = some (answer, w') → Unarmed host c w'
  | host {w : World σ} (s : σ) : Unarmed host c w → Unarmed host c ⟨w.heap, s⟩

/-- These runs with the records of their drains and passes. -/
inductive Timed (host : Host σ) (c : Config) : World (σ × List Beat) → Prop where
  | start (s : σ) : Timed host c ⟨.empty c, s, []⟩
  | perform {β : Type} {op : Operation β} {fuel : ℕ} {w w' : World (σ × List Beat)}
      {answer : Except HeapError β} : Timed host c w → ¬ op.installs →
      ((Engine.timed host fuel).perform op).run w = some (answer, w') → Timed host c w'
  | host {w : World (σ × List Beat)} (s : σ) : Timed host c w → Timed host c ⟨w.heap, s, w.host.2⟩

/-- Without its record, it is such a run. -/
theorem Timed.unarmed {w : World (σ × List Beat)} (hw : Timed host c w) :
    Unarmed host c (w.erase Prod.fst) := by
  induction hw with
  | start s => exact .start s
  | perform _ ho e ih => exact ih.perform ho ((Engine.erases_timed.perform _).run e)
  | host s _ ih => exact ih.host s

/-- Every such run has a record. -/
theorem Unarmed.timed {w : World σ} (hw : Unarmed host c w) : ∃ l, Timed host c ⟨w.heap, w.host, l⟩ := by
  induction hw with
  | start s => exact ⟨[], .start s⟩
  | @perform _ op _ w _ _ _ ho e ih =>
    obtain ⟨l, hl⟩ := ih
    obtain ⟨w', e', rfl⟩ := (Engine.erases_timed.perform op).exists_run (w := ⟨w.heap, w.host, l⟩) e
    exact ⟨w'.host.2, hl.perform ho e'⟩
  | host s _ ih =>
    obtain ⟨l, hl⟩ := ih
    exact ⟨l, hl.host s⟩

/-- Operations that install no finalizer, with the record of what they do. -/
theorem Timed.steps {w : World (σ × List Beat)} (hw : Timed host c w) (fuel : ℕ) (ops : List Command)
    (hops : ∀ o ∈ ops, ¬ o.2.installs) :
    Timed host c (Attains.follow (fun fuel _ => (Engine.timed host fuel).perform) fuel ops w) := by
  induction ops generalizing w with
  | nil => exact hw
  | cons o ops ih =>
    refine ih ?_ fun o' ho' => hops o' (List.mem_cons_of_mem _ ho')
    change Timed host c (Attains.next _ fuel o.2 w)
    unfold Attains.next
    cases e : ((Engine.timed host fuel).perform o.2).run w with
    | none => exact hw
    | some x => exact hw.perform (hops o List.mem_cons_self) e

theorem Timed.resting {w : World (σ × List Beat)} (hw : Timed host c w) :
    w.heap.Sound ∧ Resting c w.host w.heap := by
  induction hw with
  | start s => exact ⟨(kept_empty (s := False)).sound, (kept_empty (s := False)).level.1, rfl, .nil⟩
  | @perform _ op _ _ _ _ _ ho e ih =>
    exact timed_keeps.perform_lax_of_installs op (fun hi => absurd hi ho) ih _ _ e
  | host s _ ih => exact ⟨ih.1, ih.2.idle, ih.2.key, ih.2.told⟩

/-- Passes come in time where no finalizer is installed. A run has a record of what its drains and passes
do, and whatever this says, it tells how many passes there have been and how many cells drains have freed.
If the counter has stayed within 64 bits wherever cells were counted off, then it is now what it was set to
at first or by the last pass, less the cells that drains have freed since if these are to begin passes. A
voluntary pass has begun exactly at the end of each round of a drain that had freed a cell and had left the
counter used up, none is due now, and if drains are to begin no passes, then there has been none. -/
theorem passes_in_time (host : Host σ) (c : Config) (w : World σ) (hw : Unarmed host c w) :
    (∃ l, Timed host c ⟨w.heap, w.host, l⟩) ∧
    ∀ l, Timed host c ⟨w.heap, w.host, l⟩ →
      w.heap.counters.passes = (l.filterMap Beat.live?).length ∧
      w.heap.counters.queueFrees = l.count .freed ∧
      (c.Fits l → w.heap.trigger = c.counter l ∧ c.InTime l ∧ ¬ c.Due l ∧
        (c.voluntary = false → .pass true ∉ l)) := by
  refine ⟨hw.timed, fun l hl => ?_⟩
  have htold : w.heap.pace.Told c l 0 := hl.resting.2.told
  refine ⟨htold.passes, htold.freed, fun hf => ?_⟩
  obtain ⟨htrigger, hin, hdue⟩ := htold.intime hf
  rw [Nat.cast_zero, ite_self, add_zero] at htrigger
  exact ⟨htrigger, hin, hdue, hin.none_voluntary⟩

/-- Two cells may be freed before the first pass begins. -/
def Config.brisk : Config where
  triggerInitial := 2
  triggerFactor := 2
  triggerOffset := 1

/-- An object and its prototype are dropped, which begins a voluntary pass. A third object stays, a fourth
one is dropped, and then a pass is asked for. -/
def paced : World (Unit × List Beat) :=
  Attains.follow (fun fuel _ => (Engine.timed .idle fuel).perform) 9
    [⟨_, .allocObject none⟩, ⟨_, .allocObject (some ⟨0, 0⟩)⟩, ⟨_, .allocObject none⟩,
      ⟨_, .release (.ref ⟨0, 0⟩)⟩, ⟨_, .release (.ref ⟨1, 0⟩)⟩, ⟨_, .allocObject none⟩,
      ⟨_, .release (.ref ⟨0, 1⟩)⟩, ⟨_, .collect {}⟩]
    ⟨.empty Config.brisk, (), []⟩

/-- The counter is used up by two cells. It is then set for the one that is left, and so lasts for three
more. -/
theorem passes_in_time_paced : Unarmed .idle .brisk ⟨paced.heap, ()⟩ ∧ Timed .idle .brisk paced ∧
    Config.brisk.Fits paced.host.2 ∧
    paced.host.2 = [.freed, .freed, .emptied, .pass true, .reset 1, .freed, .emptied, .pass false,
      .reset 1] ∧
    paced.heap.counters.passes = 2 ∧ paced.heap.trigger = 3 ∧ Config.brisk.InTime paced.host.2 := by
  have hops : Timed .idle .brisk paced :=
    (Timed.start ()).steps 9 _ (by simp [Operation.installs])
  have hrecord : paced.host.2 = [.freed, .freed, .emptied, .pass true, .reset 1, .freed, .emptied,
      .pass false, .reset 1] := by
    decide +kernel
  have hfits : Config.brisk.Fits paced.host.2 := by
    rw [hrecord]
    decide +kernel
  obtain ⟨-, htold⟩ := passes_in_time .idle .brisk ⟨paced.heap, ()⟩ hops.unarmed
  obtain ⟨hpasses, -, hcounter⟩ := htold paced.host.2 hops
  obtain ⟨htrigger, hin, -⟩ := hcounter hfits
  rw [hrecord] at hpasses htrigger
  exact ⟨hops.unarmed, hops, hfits, hrecord, hpasses, htrigger.trans (by decide +kernel), hin⟩

end CountedHeap
