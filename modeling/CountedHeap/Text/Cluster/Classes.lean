/-!
# Classes of characters within clusters

What a reader takes for one character may be several code points: a letter and its marks, the parts
of a syllable, a flag, joined pictographs. Which code points stand together depends on their classes
as Unicode 17.0 gives them.

* `ClusterClass`: the classes.
* `ClusterClass.ranges`: the ranges of the classes that are not computed, in increasing order.
* `ClusterClass.ofChar`: the class of a character.
-/

namespace CountedHeap

/-- How a character stands towards its neighbours. -/
inductive ClusterClass where
  /-- Stands alone. -/
  | control
  | carriageReturn
  | lineFeed
  /-- A mark, which belongs to what precedes it. -/
  | extending
  /-- A mark that takes the next consonant to the one before. -/
  | linker
  /-- A mark that keeps consonants apart. -/
  | nonJoiner
  /-- A mark that takes the next pictograph to the one before. -/
  | joiner
  /-- A mark with a width of its own. -/
  | spacing
  /-- Belongs to what follows it. -/
  | prepended
  /-- A consonant of a script with linkers. -/
  | consonant
  /-- The first consonants of a syllable block. -/
  | leading
  /-- The vowel of a syllable block. -/
  | vowel
  /-- The last consonants of a syllable block. -/
  | trailing
  /-- A syllable block that ends in a vowel. -/
  | openSyllable
  /-- A syllable block that ends in consonants. -/
  | closedSyllable
  | pictograph
  /-- Half of a flag. -/
  | regional
  | other
deriving DecidableEq

namespace ClusterClass

/-- First and last code points and class of the ranges of characters, but for syllable blocks and
characters of no particular class. -/
def ranges : List (Nat × Nat × ClusterClass) :=
  [ (0x0, 0x9, .control), (0xa, 0xa, .lineFeed), (0xb, 0xc, .control), (0xd, 0xd, .carriageReturn),
    (0xe, 0x1f, .control), (0x7f, 0x9f, .control), (0xa9, 0xa9, .pictograph),
    (0xad, 0xad, .control), (0xae, 0xae, .pictograph), (0x300, 0x36f, .extending),
    (0x483, 0x489, .extending), (0x591, 0x5bd, .extending), (0x5bf, 0x5bf, .extending),
    (0x5c1, 0x5c2, .extending), (0x5c4, 0x5c5, .extending), (0x5c7, 0x5c7, .extending),
    (0x600, 0x605, .prepended), (0x610, 0x61a, .extending), (0x61c, 0x61c, .control),
    (0x64b, 0x65f, .extending), (0x670, 0x670, .extending), (0x6d6, 0x6dc, .extending),
    (0x6dd, 0x6dd, .prepended), (0x6df, 0x6e4, .extending), (0x6e7, 0x6e8, .extending),
    (0x6ea, 0x6ed, .extending), (0x70f, 0x70f, .prepended), (0x711, 0x711, .extending),
    (0x730, 0x74a, .extending), (0x7a6, 0x7b0, .extending), (0x7eb, 0x7f3, .extending),
    (0x7fd, 0x7fd, .extending), (0x816, 0x819, .extending), (0x81b, 0x823, .extending),
    (0x825, 0x827, .extending), (0x829, 0x82d, .extending), (0x859, 0x85b, .extending),
    (0x890, 0x891, .prepended), (0x897, 0x89f, .extending), (0x8ca, 0x8e1, .extending),
    (0x8e2, 0x8e2, .prepended), (0x8e3, 0x902, .extending), (0x903, 0x903, .spacing),
    (0x915, 0x939, .consonant), (0x93a, 0x93a, .extending), (0x93b, 0x93b, .spacing),
    (0x93c, 0x93c, .extending), (0x93e, 0x940, .spacing), (0x941, 0x948, .extending),
    (0x949, 0x94c, .spacing), (0x94d, 0x94d, .linker), (0x94e, 0x94f, .spacing),
    (0x951, 0x957, .extending), (0x958, 0x95f, .consonant), (0x962, 0x963, .extending),
    (0x978, 0x97f, .consonant), (0x981, 0x981, .extending), (0x982, 0x983, .spacing),
    (0x995, 0x9a8, .consonant), (0x9aa, 0x9b0, .consonant), (0x9b2, 0x9b2, .consonant),
    (0x9b6, 0x9b9, .consonant), (0x9bc, 0x9bc, .extending), (0x9be, 0x9be, .extending),
    (0x9bf, 0x9c0, .spacing), (0x9c1, 0x9c4, .extending), (0x9c7, 0x9c8, .spacing),
    (0x9cb, 0x9cc, .spacing), (0x9cd, 0x9cd, .linker), (0x9d7, 0x9d7, .extending),
    (0x9dc, 0x9dd, .consonant), (0x9df, 0x9df, .consonant), (0x9e2, 0x9e3, .extending),
    (0x9f0, 0x9f1, .consonant), (0x9fe, 0x9fe, .extending), (0xa01, 0xa02, .extending),
    (0xa03, 0xa03, .spacing), (0xa3c, 0xa3c, .extending), (0xa3e, 0xa40, .spacing),
    (0xa41, 0xa42, .extending), (0xa47, 0xa48, .extending), (0xa4b, 0xa4d, .extending),
    (0xa51, 0xa51, .extending), (0xa70, 0xa71, .extending), (0xa75, 0xa75, .extending),
    (0xa81, 0xa82, .extending), (0xa83, 0xa83, .spacing), (0xa95, 0xaa8, .consonant),
    (0xaaa, 0xab0, .consonant), (0xab2, 0xab3, .consonant), (0xab5, 0xab9, .consonant),
    (0xabc, 0xabc, .extending), (0xabe, 0xac0, .spacing), (0xac1, 0xac5, .extending),
    (0xac7, 0xac8, .extending), (0xac9, 0xac9, .spacing), (0xacb, 0xacc, .spacing),
    (0xacd, 0xacd, .linker), (0xae2, 0xae3, .extending), (0xaf9, 0xaf9, .consonant),
    (0xafa, 0xaff, .extending), (0xb01, 0xb01, .extending), (0xb02, 0xb03, .spacing),
    (0xb15, 0xb28, .consonant), (0xb2a, 0xb30, .consonant), (0xb32, 0xb33, .consonant),
    (0xb35, 0xb39, .consonant), (0xb3c, 0xb3c, .extending), (0xb3e, 0xb3f, .extending),
    (0xb40, 0xb40, .spacing), (0xb41, 0xb44, .extending), (0xb47, 0xb48, .spacing),
    (0xb4b, 0xb4c, .spacing), (0xb4d, 0xb4d, .linker), (0xb55, 0xb57, .extending),
    (0xb5c, 0xb5d, .consonant), (0xb5f, 0xb5f, .consonant), (0xb62, 0xb63, .extending),
    (0xb71, 0xb71, .consonant), (0xb82, 0xb82, .extending), (0xbbe, 0xbbe, .extending),
    (0xbbf, 0xbbf, .spacing), (0xbc0, 0xbc0, .extending), (0xbc1, 0xbc2, .spacing),
    (0xbc6, 0xbc8, .spacing), (0xbca, 0xbcc, .spacing), (0xbcd, 0xbcd, .extending),
    (0xbd7, 0xbd7, .extending), (0xc00, 0xc00, .extending), (0xc01, 0xc03, .spacing),
    (0xc04, 0xc04, .extending), (0xc15, 0xc28, .consonant), (0xc2a, 0xc39, .consonant),
    (0xc3c, 0xc3c, .extending), (0xc3e, 0xc40, .extending), (0xc41, 0xc44, .spacing),
    (0xc46, 0xc48, .extending), (0xc4a, 0xc4c, .extending), (0xc4d, 0xc4d, .linker),
    (0xc55, 0xc56, .extending), (0xc58, 0xc5a, .consonant), (0xc62, 0xc63, .extending),
    (0xc81, 0xc81, .extending), (0xc82, 0xc83, .spacing), (0xcbc, 0xcbc, .extending),
    (0xcbe, 0xcbe, .spacing), (0xcbf, 0xcc0, .extending), (0xcc1, 0xcc1, .spacing),
    (0xcc2, 0xcc2, .extending), (0xcc3, 0xcc4, .spacing), (0xcc6, 0xcc8, .extending),
    (0xcca, 0xccd, .extending), (0xcd5, 0xcd6, .extending), (0xce2, 0xce3, .extending),
    (0xcf3, 0xcf3, .spacing), (0xd00, 0xd01, .extending), (0xd02, 0xd03, .spacing),
    (0xd15, 0xd3a, .consonant), (0xd3b, 0xd3c, .extending), (0xd3e, 0xd3e, .extending),
    (0xd3f, 0xd40, .spacing), (0xd41, 0xd44, .extending), (0xd46, 0xd48, .spacing),
    (0xd4a, 0xd4c, .spacing), (0xd4d, 0xd4d, .linker), (0xd4e, 0xd4e, .prepended),
    (0xd57, 0xd57, .extending), (0xd62, 0xd63, .extending), (0xd81, 0xd81, .extending),
    (0xd82, 0xd83, .spacing), (0xdca, 0xdca, .extending), (0xdcf, 0xdcf, .extending),
    (0xdd0, 0xdd1, .spacing), (0xdd2, 0xdd4, .extending), (0xdd6, 0xdd6, .extending),
    (0xdd8, 0xdde, .spacing), (0xddf, 0xddf, .extending), (0xdf2, 0xdf3, .spacing),
    (0xe31, 0xe31, .extending), (0xe33, 0xe33, .spacing), (0xe34, 0xe3a, .extending),
    (0xe47, 0xe4e, .extending), (0xeb1, 0xeb1, .extending), (0xeb3, 0xeb3, .spacing),
    (0xeb4, 0xebc, .extending), (0xec8, 0xece, .extending), (0xf18, 0xf19, .extending),
    (0xf35, 0xf35, .extending), (0xf37, 0xf37, .extending), (0xf39, 0xf39, .extending),
    (0xf3e, 0xf3f, .spacing), (0xf71, 0xf7e, .extending), (0xf7f, 0xf7f, .spacing),
    (0xf80, 0xf84, .extending), (0xf86, 0xf87, .extending), (0xf8d, 0xf97, .extending),
    (0xf99, 0xfbc, .extending), (0xfc6, 0xfc6, .extending), (0x1000, 0x102a, .consonant),
    (0x102d, 0x1030, .extending), (0x1031, 0x1031, .spacing), (0x1032, 0x1037, .extending),
    (0x1039, 0x1039, .linker), (0x103a, 0x103a, .extending), (0x103b, 0x103c, .spacing),
    (0x103d, 0x103e, .extending), (0x103f, 0x103f, .consonant), (0x1050, 0x1055, .consonant),
    (0x1056, 0x1057, .spacing), (0x1058, 0x1059, .extending), (0x105a, 0x105d, .consonant),
    (0x105e, 0x1060, .extending), (0x1061, 0x1061, .consonant), (0x1065, 0x1066, .consonant),
    (0x106e, 0x1070, .consonant), (0x1071, 0x1074, .extending), (0x1075, 0x1081, .consonant),
    (0x1082, 0x1082, .extending), (0x1084, 0x1084, .spacing), (0x1085, 0x1086, .extending),
    (0x108d, 0x108d, .extending), (0x108e, 0x108e, .consonant), (0x109d, 0x109d, .extending),
    (0x1100, 0x115f, .leading), (0x1160, 0x11a7, .vowel), (0x11a8, 0x11ff, .trailing),
    (0x135d, 0x135f, .extending), (0x1712, 0x1715, .extending), (0x1732, 0x1734, .extending),
    (0x1752, 0x1753, .extending), (0x1772, 0x1773, .extending), (0x1780, 0x17b3, .consonant),
    (0x17b4, 0x17b5, .extending), (0x17b6, 0x17b6, .spacing), (0x17b7, 0x17bd, .extending),
    (0x17be, 0x17c5, .spacing), (0x17c6, 0x17c6, .extending), (0x17c7, 0x17c8, .spacing),
    (0x17c9, 0x17d1, .extending), (0x17d2, 0x17d2, .linker), (0x17d3, 0x17d3, .extending),
    (0x17dd, 0x17dd, .extending), (0x180b, 0x180d, .extending), (0x180e, 0x180e, .control),
    (0x180f, 0x180f, .extending), (0x1885, 0x1886, .extending), (0x18a9, 0x18a9, .extending),
    (0x1920, 0x1922, .extending), (0x1923, 0x1926, .spacing), (0x1927, 0x1928, .extending),
    (0x1929, 0x192b, .spacing), (0x1930, 0x1931, .spacing), (0x1932, 0x1932, .extending),
    (0x1933, 0x1938, .spacing), (0x1939, 0x193b, .extending), (0x1a17, 0x1a18, .extending),
    (0x1a19, 0x1a1a, .spacing), (0x1a1b, 0x1a1b, .extending), (0x1a20, 0x1a54, .consonant),
    (0x1a55, 0x1a55, .spacing), (0x1a56, 0x1a56, .extending), (0x1a57, 0x1a57, .spacing),
    (0x1a58, 0x1a5e, .extending), (0x1a60, 0x1a60, .linker), (0x1a62, 0x1a62, .extending),
    (0x1a65, 0x1a6c, .extending), (0x1a6d, 0x1a72, .spacing), (0x1a73, 0x1a7c, .extending),
    (0x1a7f, 0x1a7f, .extending), (0x1ab0, 0x1add, .extending), (0x1ae0, 0x1aeb, .extending),
    (0x1b00, 0x1b03, .extending), (0x1b04, 0x1b04, .spacing), (0x1b0b, 0x1b0c, .consonant),
    (0x1b13, 0x1b33, .consonant), (0x1b34, 0x1b3d, .extending), (0x1b3e, 0x1b41, .spacing),
    (0x1b42, 0x1b43, .extending), (0x1b44, 0x1b44, .linker), (0x1b45, 0x1b4c, .consonant),
    (0x1b6b, 0x1b73, .extending), (0x1b80, 0x1b81, .extending), (0x1b82, 0x1b82, .spacing),
    (0x1b83, 0x1ba0, .consonant), (0x1ba1, 0x1ba1, .spacing), (0x1ba2, 0x1ba5, .extending),
    (0x1ba6, 0x1ba7, .spacing), (0x1ba8, 0x1baa, .extending), (0x1bab, 0x1bab, .linker),
    (0x1bac, 0x1bad, .extending), (0x1bae, 0x1baf, .consonant), (0x1bbb, 0x1bbd, .consonant),
    (0x1be6, 0x1be6, .extending), (0x1be7, 0x1be7, .spacing), (0x1be8, 0x1be9, .extending),
    (0x1bea, 0x1bec, .spacing), (0x1bed, 0x1bed, .extending), (0x1bee, 0x1bee, .spacing),
    (0x1bef, 0x1bf3, .extending), (0x1c24, 0x1c2b, .spacing), (0x1c2c, 0x1c33, .extending),
    (0x1c34, 0x1c35, .spacing), (0x1c36, 0x1c37, .extending), (0x1cd0, 0x1cd2, .extending),
    (0x1cd4, 0x1ce0, .extending), (0x1ce1, 0x1ce1, .spacing), (0x1ce2, 0x1ce8, .extending),
    (0x1ced, 0x1ced, .extending), (0x1cf4, 0x1cf4, .extending), (0x1cf7, 0x1cf7, .spacing),
    (0x1cf8, 0x1cf9, .extending), (0x1dc0, 0x1dff, .extending), (0x200b, 0x200b, .control),
    (0x200c, 0x200c, .nonJoiner), (0x200d, 0x200d, .joiner), (0x200e, 0x200f, .control),
    (0x2028, 0x202e, .control), (0x203c, 0x203c, .pictograph), (0x2049, 0x2049, .pictograph),
    (0x2060, 0x206f, .control), (0x20d0, 0x20f0, .extending), (0x2122, 0x2122, .pictograph),
    (0x2139, 0x2139, .pictograph), (0x2194, 0x2199, .pictograph), (0x21a9, 0x21aa, .pictograph),
    (0x231a, 0x231b, .pictograph), (0x2328, 0x2328, .pictograph), (0x23cf, 0x23cf, .pictograph),
    (0x23e9, 0x23f3, .pictograph), (0x23f8, 0x23fa, .pictograph), (0x24c2, 0x24c2, .pictograph),
    (0x25aa, 0x25ab, .pictograph), (0x25b6, 0x25b6, .pictograph), (0x25c0, 0x25c0, .pictograph),
    (0x25fb, 0x25fe, .pictograph), (0x2600, 0x2604, .pictograph), (0x260e, 0x260e, .pictograph),
    (0x2611, 0x2611, .pictograph), (0x2614, 0x2615, .pictograph), (0x2618, 0x2618, .pictograph),
    (0x261d, 0x261d, .pictograph), (0x2620, 0x2620, .pictograph), (0x2622, 0x2623, .pictograph),
    (0x2626, 0x2626, .pictograph), (0x262a, 0x262a, .pictograph), (0x262e, 0x262f, .pictograph),
    (0x2638, 0x263a, .pictograph), (0x2640, 0x2640, .pictograph), (0x2642, 0x2642, .pictograph),
    (0x2648, 0x2653, .pictograph), (0x265f, 0x2660, .pictograph), (0x2663, 0x2663, .pictograph),
    (0x2665, 0x2666, .pictograph), (0x2668, 0x2668, .pictograph), (0x267b, 0x267b, .pictograph),
    (0x267e, 0x267f, .pictograph), (0x2692, 0x2697, .pictograph), (0x2699, 0x2699, .pictograph),
    (0x269b, 0x269c, .pictograph), (0x26a0, 0x26a1, .pictograph), (0x26a7, 0x26a7, .pictograph),
    (0x26aa, 0x26ab, .pictograph), (0x26b0, 0x26b1, .pictograph), (0x26bd, 0x26be, .pictograph),
    (0x26c4, 0x26c5, .pictograph), (0x26c8, 0x26c8, .pictograph), (0x26ce, 0x26cf, .pictograph),
    (0x26d1, 0x26d1, .pictograph), (0x26d3, 0x26d4, .pictograph), (0x26e9, 0x26ea, .pictograph),
    (0x26f0, 0x26f5, .pictograph), (0x26f7, 0x26fa, .pictograph), (0x26fd, 0x26fd, .pictograph),
    (0x2702, 0x2702, .pictograph), (0x2705, 0x2705, .pictograph), (0x2708, 0x270d, .pictograph),
    (0x270f, 0x270f, .pictograph), (0x2712, 0x2712, .pictograph), (0x2714, 0x2714, .pictograph),
    (0x2716, 0x2716, .pictograph), (0x271d, 0x271d, .pictograph), (0x2721, 0x2721, .pictograph),
    (0x2728, 0x2728, .pictograph), (0x2733, 0x2734, .pictograph), (0x2744, 0x2744, .pictograph),
    (0x2747, 0x2747, .pictograph), (0x274c, 0x274c, .pictograph), (0x274e, 0x274e, .pictograph),
    (0x2753, 0x2755, .pictograph), (0x2757, 0x2757, .pictograph), (0x2763, 0x2764, .pictograph),
    (0x2795, 0x2797, .pictograph), (0x27a1, 0x27a1, .pictograph), (0x27b0, 0x27b0, .pictograph),
    (0x27bf, 0x27bf, .pictograph), (0x2934, 0x2935, .pictograph), (0x2b05, 0x2b07, .pictograph),
    (0x2b1b, 0x2b1c, .pictograph), (0x2b50, 0x2b50, .pictograph), (0x2b55, 0x2b55, .pictograph),
    (0x2cef, 0x2cf1, .extending), (0x2d7f, 0x2d7f, .extending), (0x2de0, 0x2dff, .extending),
    (0x302a, 0x302f, .extending), (0x3030, 0x3030, .pictograph), (0x303d, 0x303d, .pictograph),
    (0x3099, 0x309a, .extending), (0x3297, 0x3297, .pictograph), (0x3299, 0x3299, .pictograph),
    (0xa66f, 0xa672, .extending), (0xa674, 0xa67d, .extending), (0xa69e, 0xa69f, .extending),
    (0xa6f0, 0xa6f1, .extending), (0xa802, 0xa802, .extending), (0xa806, 0xa806, .extending),
    (0xa80b, 0xa80b, .extending), (0xa823, 0xa824, .spacing), (0xa825, 0xa826, .extending),
    (0xa827, 0xa827, .spacing), (0xa82c, 0xa82c, .extending), (0xa880, 0xa881, .spacing),
    (0xa8b4, 0xa8c3, .spacing), (0xa8c4, 0xa8c5, .extending), (0xa8e0, 0xa8f1, .extending),
    (0xa8ff, 0xa8ff, .extending), (0xa926, 0xa92d, .extending), (0xa947, 0xa951, .extending),
    (0xa952, 0xa952, .spacing), (0xa953, 0xa953, .extending), (0xa960, 0xa97c, .leading),
    (0xa980, 0xa982, .extending), (0xa983, 0xa983, .spacing), (0xa989, 0xa98b, .consonant),
    (0xa98f, 0xa9b2, .consonant), (0xa9b3, 0xa9b3, .extending), (0xa9b4, 0xa9b5, .spacing),
    (0xa9b6, 0xa9b9, .extending), (0xa9ba, 0xa9bb, .spacing), (0xa9bc, 0xa9bd, .extending),
    (0xa9be, 0xa9bf, .spacing), (0xa9c0, 0xa9c0, .linker), (0xa9e0, 0xa9e4, .consonant),
    (0xa9e5, 0xa9e5, .extending), (0xa9e7, 0xa9ef, .consonant), (0xa9fa, 0xa9fe, .consonant),
    (0xaa29, 0xaa2e, .extending), (0xaa2f, 0xaa30, .spacing), (0xaa31, 0xaa32, .extending),
    (0xaa33, 0xaa34, .spacing), (0xaa35, 0xaa36, .extending), (0xaa43, 0xaa43, .extending),
    (0xaa4c, 0xaa4c, .extending), (0xaa4d, 0xaa4d, .spacing), (0xaa60, 0xaa6f, .consonant),
    (0xaa71, 0xaa73, .consonant), (0xaa7a, 0xaa7a, .consonant), (0xaa7c, 0xaa7c, .extending),
    (0xaa7e, 0xaa7f, .consonant), (0xaab0, 0xaab0, .extending), (0xaab2, 0xaab4, .extending),
    (0xaab7, 0xaab8, .extending), (0xaabe, 0xaabf, .extending), (0xaac1, 0xaac1, .extending),
    (0xaae0, 0xaaea, .consonant), (0xaaeb, 0xaaeb, .spacing), (0xaaec, 0xaaed, .extending),
    (0xaaee, 0xaaef, .spacing), (0xaaf5, 0xaaf5, .spacing), (0xaaf6, 0xaaf6, .linker),
    (0xabc0, 0xabda, .consonant), (0xabe3, 0xabe4, .spacing), (0xabe5, 0xabe5, .extending),
    (0xabe6, 0xabe7, .spacing), (0xabe8, 0xabe8, .extending), (0xabe9, 0xabea, .spacing),
    (0xabec, 0xabec, .spacing), (0xabed, 0xabed, .extending), (0xd7b0, 0xd7c6, .vowel),
    (0xd7cb, 0xd7fb, .trailing), (0xfb1e, 0xfb1e, .extending), (0xfe00, 0xfe0f, .extending),
    (0xfe20, 0xfe2f, .extending), (0xfeff, 0xfeff, .control), (0xff9e, 0xff9f, .extending),
    (0xfff0, 0xfffb, .control), (0x101fd, 0x101fd, .extending), (0x102e0, 0x102e0, .extending),
    (0x10376, 0x1037a, .extending), (0x10a00, 0x10a00, .consonant), (0x10a01, 0x10a03, .extending),
    (0x10a05, 0x10a06, .extending), (0x10a0c, 0x10a0f, .extending), (0x10a10, 0x10a13, .consonant),
    (0x10a15, 0x10a17, .consonant), (0x10a19, 0x10a35, .consonant), (0x10a38, 0x10a3a, .extending),
    (0x10a3f, 0x10a3f, .linker), (0x10ae5, 0x10ae6, .extending), (0x10d24, 0x10d27, .extending),
    (0x10d69, 0x10d6d, .extending), (0x10eab, 0x10eac, .extending), (0x10efa, 0x10eff, .extending),
    (0x10f46, 0x10f50, .extending), (0x10f82, 0x10f85, .extending), (0x11000, 0x11000, .spacing),
    (0x11001, 0x11001, .extending), (0x11002, 0x11002, .spacing), (0x11038, 0x11046, .extending),
    (0x11070, 0x11070, .extending), (0x11073, 0x11074, .extending), (0x1107f, 0x11081, .extending),
    (0x11082, 0x11082, .spacing), (0x110b0, 0x110b2, .spacing), (0x110b3, 0x110b6, .extending),
    (0x110b7, 0x110b8, .spacing), (0x110b9, 0x110ba, .extending), (0x110bd, 0x110bd, .prepended),
    (0x110c2, 0x110c2, .extending), (0x110cd, 0x110cd, .prepended), (0x11100, 0x11102, .extending),
    (0x11103, 0x11126, .consonant), (0x11127, 0x1112b, .extending), (0x1112c, 0x1112c, .spacing),
    (0x1112d, 0x11132, .extending), (0x11133, 0x11133, .linker), (0x11134, 0x11134, .extending),
    (0x11144, 0x11144, .consonant), (0x11145, 0x11146, .spacing), (0x11147, 0x11147, .consonant),
    (0x11173, 0x11173, .extending), (0x11180, 0x11181, .extending), (0x11182, 0x11182, .spacing),
    (0x111b3, 0x111b5, .spacing), (0x111b6, 0x111be, .extending), (0x111bf, 0x111bf, .spacing),
    (0x111c0, 0x111c0, .extending), (0x111c2, 0x111c3, .prepended), (0x111c9, 0x111cc, .extending),
    (0x111ce, 0x111ce, .spacing), (0x111cf, 0x111cf, .extending), (0x1122c, 0x1122e, .spacing),
    (0x1122f, 0x11231, .extending), (0x11232, 0x11233, .spacing), (0x11234, 0x11237, .extending),
    (0x1123e, 0x1123e, .extending), (0x11241, 0x11241, .extending), (0x112df, 0x112df, .extending),
    (0x112e0, 0x112e2, .spacing), (0x112e3, 0x112ea, .extending), (0x11300, 0x11301, .extending),
    (0x11302, 0x11303, .spacing), (0x1133b, 0x1133c, .extending), (0x1133e, 0x1133e, .extending),
    (0x1133f, 0x1133f, .spacing), (0x11340, 0x11340, .extending), (0x11341, 0x11344, .spacing),
    (0x11347, 0x11348, .spacing), (0x1134b, 0x1134c, .spacing), (0x1134d, 0x1134d, .extending),
    (0x11357, 0x11357, .extending), (0x11362, 0x11363, .spacing), (0x11366, 0x1136c, .extending),
    (0x11370, 0x11374, .extending), (0x11380, 0x11389, .consonant), (0x1138b, 0x1138b, .consonant),
    (0x1138e, 0x1138e, .consonant), (0x11390, 0x113b5, .consonant), (0x113b8, 0x113b8, .extending),
    (0x113b9, 0x113ba, .spacing), (0x113bb, 0x113c0, .extending), (0x113c2, 0x113c2, .extending),
    (0x113c5, 0x113c5, .extending), (0x113c7, 0x113c9, .extending), (0x113ca, 0x113ca, .spacing),
    (0x113cc, 0x113cd, .spacing), (0x113ce, 0x113cf, .extending), (0x113d0, 0x113d0, .linker),
    (0x113d1, 0x113d1, .prepended), (0x113d2, 0x113d2, .extending), (0x113e1, 0x113e2, .extending),
    (0x11435, 0x11437, .spacing), (0x11438, 0x1143f, .extending), (0x11440, 0x11441, .spacing),
    (0x11442, 0x11444, .extending), (0x11445, 0x11445, .spacing), (0x11446, 0x11446, .extending),
    (0x1145e, 0x1145e, .extending), (0x114b0, 0x114b0, .extending), (0x114b1, 0x114b2, .spacing),
    (0x114b3, 0x114b8, .extending), (0x114b9, 0x114b9, .spacing), (0x114ba, 0x114ba, .extending),
    (0x114bb, 0x114bc, .spacing), (0x114bd, 0x114bd, .extending), (0x114be, 0x114be, .spacing),
    (0x114bf, 0x114c0, .extending), (0x114c1, 0x114c1, .spacing), (0x114c2, 0x114c3, .extending),
    (0x115af, 0x115af, .extending), (0x115b0, 0x115b1, .spacing), (0x115b2, 0x115b5, .extending),
    (0x115b8, 0x115bb, .spacing), (0x115bc, 0x115bd, .extending), (0x115be, 0x115be, .spacing),
    (0x115bf, 0x115c0, .extending), (0x115dc, 0x115dd, .extending), (0x11630, 0x11632, .spacing),
    (0x11633, 0x1163a, .extending), (0x1163b, 0x1163c, .spacing), (0x1163d, 0x1163d, .extending),
    (0x1163e, 0x1163e, .spacing), (0x1163f, 0x11640, .extending), (0x116ab, 0x116ab, .extending),
    (0x116ac, 0x116ac, .spacing), (0x116ad, 0x116ad, .extending), (0x116ae, 0x116af, .spacing),
    (0x116b0, 0x116b7, .extending), (0x1171d, 0x1171d, .extending), (0x1171e, 0x1171e, .spacing),
    (0x1171f, 0x1171f, .extending), (0x11722, 0x11725, .extending), (0x11726, 0x11726, .spacing),
    (0x11727, 0x1172b, .extending), (0x1182c, 0x1182e, .spacing), (0x1182f, 0x11837, .extending),
    (0x11838, 0x11838, .spacing), (0x11839, 0x1183a, .extending), (0x11900, 0x11906, .consonant),
    (0x11909, 0x11909, .consonant), (0x1190c, 0x11913, .consonant), (0x11915, 0x11916, .consonant),
    (0x11918, 0x1192f, .consonant), (0x11930, 0x11930, .extending), (0x11931, 0x11935, .spacing),
    (0x11937, 0x11938, .spacing), (0x1193b, 0x1193d, .extending), (0x1193e, 0x1193e, .linker),
    (0x1193f, 0x1193f, .prepended), (0x11940, 0x11940, .spacing), (0x11941, 0x11941, .prepended),
    (0x11942, 0x11942, .spacing), (0x11943, 0x11943, .extending), (0x119d1, 0x119d3, .spacing),
    (0x119d4, 0x119d7, .extending), (0x119da, 0x119db, .extending), (0x119dc, 0x119df, .spacing),
    (0x119e0, 0x119e0, .extending), (0x119e4, 0x119e4, .spacing), (0x11a00, 0x11a00, .consonant),
    (0x11a01, 0x11a0a, .extending), (0x11a0b, 0x11a32, .consonant), (0x11a33, 0x11a38, .extending),
    (0x11a39, 0x11a39, .spacing), (0x11a3b, 0x11a3e, .extending), (0x11a47, 0x11a47, .linker),
    (0x11a50, 0x11a50, .consonant), (0x11a51, 0x11a56, .extending), (0x11a57, 0x11a58, .spacing),
    (0x11a59, 0x11a5b, .extending), (0x11a5c, 0x11a83, .consonant), (0x11a84, 0x11a89, .prepended),
    (0x11a8a, 0x11a96, .extending), (0x11a97, 0x11a97, .spacing), (0x11a98, 0x11a98, .extending),
    (0x11a99, 0x11a99, .linker), (0x11b60, 0x11b60, .extending), (0x11b61, 0x11b61, .spacing),
    (0x11b62, 0x11b64, .extending), (0x11b65, 0x11b65, .spacing), (0x11b66, 0x11b66, .extending),
    (0x11b67, 0x11b67, .spacing), (0x11c2f, 0x11c2f, .spacing), (0x11c30, 0x11c36, .extending),
    (0x11c38, 0x11c3d, .extending), (0x11c3e, 0x11c3e, .spacing), (0x11c3f, 0x11c3f, .extending),
    (0x11c92, 0x11ca7, .extending), (0x11ca9, 0x11ca9, .spacing), (0x11caa, 0x11cb0, .extending),
    (0x11cb1, 0x11cb1, .spacing), (0x11cb2, 0x11cb3, .extending), (0x11cb4, 0x11cb4, .spacing),
    (0x11cb5, 0x11cb6, .extending), (0x11d31, 0x11d36, .extending), (0x11d3a, 0x11d3a, .extending),
    (0x11d3c, 0x11d3d, .extending), (0x11d3f, 0x11d45, .extending), (0x11d46, 0x11d46, .prepended),
    (0x11d47, 0x11d47, .extending), (0x11d8a, 0x11d8e, .spacing), (0x11d90, 0x11d91, .extending),
    (0x11d93, 0x11d94, .spacing), (0x11d95, 0x11d95, .extending), (0x11d96, 0x11d96, .spacing),
    (0x11d97, 0x11d97, .extending), (0x11ef3, 0x11ef4, .extending), (0x11ef5, 0x11ef6, .spacing),
    (0x11f00, 0x11f01, .extending), (0x11f02, 0x11f02, .prepended), (0x11f03, 0x11f03, .spacing),
    (0x11f04, 0x11f10, .consonant), (0x11f12, 0x11f33, .consonant), (0x11f34, 0x11f35, .spacing),
    (0x11f36, 0x11f3a, .extending), (0x11f3e, 0x11f3f, .spacing), (0x11f40, 0x11f41, .extending),
    (0x11f42, 0x11f42, .linker), (0x11f5a, 0x11f5a, .extending), (0x13430, 0x1343f, .control),
    (0x13440, 0x13440, .extending), (0x13447, 0x13455, .extending), (0x1611e, 0x16129, .extending),
    (0x1612a, 0x1612c, .spacing), (0x1612d, 0x1612f, .extending), (0x16af0, 0x16af4, .extending),
    (0x16b30, 0x16b36, .extending), (0x16d63, 0x16d63, .vowel), (0x16d67, 0x16d6a, .vowel),
    (0x16f4f, 0x16f4f, .extending), (0x16f51, 0x16f87, .spacing), (0x16f8f, 0x16f92, .extending),
    (0x16fe4, 0x16fe4, .extending), (0x16ff0, 0x16ff1, .extending), (0x1bc9d, 0x1bc9e, .extending),
    (0x1bca0, 0x1bca3, .control), (0x1cf00, 0x1cf2d, .extending), (0x1cf30, 0x1cf46, .extending),
    (0x1d165, 0x1d169, .extending), (0x1d16d, 0x1d172, .extending), (0x1d173, 0x1d17a, .control),
    (0x1d17b, 0x1d182, .extending), (0x1d185, 0x1d18b, .extending), (0x1d1aa, 0x1d1ad, .extending),
    (0x1d242, 0x1d244, .extending), (0x1da00, 0x1da36, .extending), (0x1da3b, 0x1da6c, .extending),
    (0x1da75, 0x1da75, .extending), (0x1da84, 0x1da84, .extending), (0x1da9b, 0x1da9f, .extending),
    (0x1daa1, 0x1daaf, .extending), (0x1e000, 0x1e006, .extending), (0x1e008, 0x1e018, .extending),
    (0x1e01b, 0x1e021, .extending), (0x1e023, 0x1e024, .extending), (0x1e026, 0x1e02a, .extending),
    (0x1e08f, 0x1e08f, .extending), (0x1e130, 0x1e136, .extending), (0x1e2ae, 0x1e2ae, .extending),
    (0x1e2ec, 0x1e2ef, .extending), (0x1e4ec, 0x1e4ef, .extending), (0x1e5ee, 0x1e5ef, .extending),
    (0x1e6e3, 0x1e6e3, .extending), (0x1e6e6, 0x1e6e6, .extending), (0x1e6ee, 0x1e6ef, .extending),
    (0x1e6f5, 0x1e6f5, .extending), (0x1e8d0, 0x1e8d6, .extending), (0x1e944, 0x1e94a, .extending),
    (0x1f004, 0x1f004, .pictograph), (0x1f02c, 0x1f02f, .pictograph),
    (0x1f094, 0x1f09f, .pictograph), (0x1f0af, 0x1f0b0, .pictograph),
    (0x1f0c0, 0x1f0c0, .pictograph), (0x1f0cf, 0x1f0d0, .pictograph),
    (0x1f0f6, 0x1f0ff, .pictograph), (0x1f170, 0x1f171, .pictograph),
    (0x1f17e, 0x1f17f, .pictograph), (0x1f18e, 0x1f18e, .pictograph),
    (0x1f191, 0x1f19a, .pictograph), (0x1f1ae, 0x1f1e5, .pictograph),
    (0x1f1e6, 0x1f1ff, .regional), (0x1f201, 0x1f20f, .pictograph),
    (0x1f21a, 0x1f21a, .pictograph), (0x1f22f, 0x1f22f, .pictograph),
    (0x1f232, 0x1f23a, .pictograph), (0x1f23c, 0x1f23f, .pictograph),
    (0x1f249, 0x1f25f, .pictograph), (0x1f266, 0x1f321, .pictograph),
    (0x1f324, 0x1f393, .pictograph), (0x1f396, 0x1f397, .pictograph),
    (0x1f399, 0x1f39b, .pictograph), (0x1f39e, 0x1f3f0, .pictograph),
    (0x1f3f3, 0x1f3f5, .pictograph), (0x1f3f7, 0x1f3fa, .pictograph),
    (0x1f3fb, 0x1f3ff, .extending), (0x1f400, 0x1f4fd, .pictograph),
    (0x1f4ff, 0x1f53d, .pictograph), (0x1f549, 0x1f54e, .pictograph),
    (0x1f550, 0x1f567, .pictograph), (0x1f56f, 0x1f570, .pictograph),
    (0x1f573, 0x1f57a, .pictograph), (0x1f587, 0x1f587, .pictograph),
    (0x1f58a, 0x1f58d, .pictograph), (0x1f590, 0x1f590, .pictograph),
    (0x1f595, 0x1f596, .pictograph), (0x1f5a4, 0x1f5a5, .pictograph),
    (0x1f5a8, 0x1f5a8, .pictograph), (0x1f5b1, 0x1f5b2, .pictograph),
    (0x1f5bc, 0x1f5bc, .pictograph), (0x1f5c2, 0x1f5c4, .pictograph),
    (0x1f5d1, 0x1f5d3, .pictograph), (0x1f5dc, 0x1f5de, .pictograph),
    (0x1f5e1, 0x1f5e1, .pictograph), (0x1f5e3, 0x1f5e3, .pictograph),
    (0x1f5e8, 0x1f5e8, .pictograph), (0x1f5ef, 0x1f5ef, .pictograph),
    (0x1f5f3, 0x1f5f3, .pictograph), (0x1f5fa, 0x1f64f, .pictograph),
    (0x1f680, 0x1f6c5, .pictograph), (0x1f6cb, 0x1f6d2, .pictograph),
    (0x1f6d5, 0x1f6e5, .pictograph), (0x1f6e9, 0x1f6e9, .pictograph),
    (0x1f6eb, 0x1f6f0, .pictograph), (0x1f6f3, 0x1f6ff, .pictograph),
    (0x1f7da, 0x1f7ff, .pictograph), (0x1f80c, 0x1f80f, .pictograph),
    (0x1f848, 0x1f84f, .pictograph), (0x1f85a, 0x1f85f, .pictograph),
    (0x1f888, 0x1f88f, .pictograph), (0x1f8ae, 0x1f8af, .pictograph),
    (0x1f8bc, 0x1f8bf, .pictograph), (0x1f8c2, 0x1f8cf, .pictograph),
    (0x1f8d9, 0x1f8ff, .pictograph), (0x1f90c, 0x1f93a, .pictograph),
    (0x1f93c, 0x1f945, .pictograph), (0x1f947, 0x1f9ff, .pictograph),
    (0x1fa58, 0x1fa5f, .pictograph), (0x1fa6e, 0x1faff, .pictograph),
    (0x1fc00, 0x1fffd, .pictograph), (0xe0000, 0xe001f, .control), (0xe0020, 0xe007f, .extending),
    (0xe0080, 0xe00ff, .control), (0xe0100, 0xe01ef, .extending), (0xe01f0, 0xe0fff, .control) ]

/-- What a table of ranges in increasing order says of a code point. -/
def lookupRange? {α : Type} (n : Nat) : List (Nat × Nat × α) → Option α
  | [] => none
  | (first, last, a) :: rest =>
    if n < first then none else if n ≤ last then some a else lookupRange? n rest

/-- What is found is the entry of a range that holds the code point. -/
theorem mem_of_lookupRange? {α : Type} {n : Nat} {table : List (Nat × Nat × α)} {a : α}
    (h : lookupRange? n table = some a) :
    ∃ first last, (first, last, a) ∈ table ∧ first ≤ n ∧ n ≤ last := by
  induction table with
  | nil => simp [lookupRange?] at h
  | cons entry rest ih =>
    obtain ⟨first, last, b⟩ := entry
    simp only [lookupRange?] at h
    split at h
    · simp at h
    · split at h
      · obtain rfl := Option.some.inj h
        exact ⟨first, last, by simp, by omega, by omega⟩
      · obtain ⟨first, last, hmem, hn⟩ := ih h
        exact ⟨first, last, by simp [hmem], hn⟩

/-- The class of a character. Of the syllable blocks, which run through the last consonants of each
pair of first consonants and vowel, one in 28 has no last consonants. -/
def ofChar (c : Char) : ClusterClass :=
  let n := c.toNat
  if 0xac00 ≤ n ∧ n ≤ 0xd7a3 then
    if (n - 0xac00) % 28 = 0 then openSyllable else closedSyllable
  else (lookupRange? n ranges).getD other

end ClusterClass

end CountedHeap
