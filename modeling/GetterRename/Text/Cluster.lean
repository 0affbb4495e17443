import GetterRename.Text.CharClass

/-!
# Clusters

The characters of a text that a reader takes for one: a letter with its marks, the parts of a
syllable, symbols that are joined, the two letters of a flag (Unicode 15, extended clusters).

- `Cluster.Role` : what a character does at the borders of clusters;
- `Cluster.Place` : what is known of the text before a character;
- `Cluster.split` : the clusters of a text.
-/

namespace GetterRename.Cluster

/-! ## Tables -/

/-- Characters that no other joins, besides the ends of lines. -/
def controls : List (Nat × Nat) := [
  (0x0000, 0x0009), (0x000B, 0x000C), (0x000E, 0x001F), (0x007F, 0x009F), (0x00AD, 0x00AD),
  (0x061C, 0x061C), (0x180E, 0x180E), (0x200B, 0x200B), (0x200E, 0x200F), (0x2028, 0x202E),
  (0x2060, 0x206F), (0xFEFF, 0xFEFF), (0xFFF0, 0xFFFB), (0x13430, 0x1343F), (0x1BCA0, 0x1BCA3),
  (0x1D173, 0x1D17A), (0xE0000, 0xE001F), (0xE0080, 0xE00FF), (0xE01F0, 0xE0FFF)]

/-- Marks that join the character before them, besides those without width. -/
def otherMarks : List (Nat × Nat) := [
  (0x0488, 0x0489), (0x09BE, 0x09BE), (0x09D7, 0x09D7), (0x0B3E, 0x0B3E), (0x0B57, 0x0B57),
  (0x0BBE, 0x0BBE), (0x0BD7, 0x0BD7), (0x0CC2, 0x0CC2), (0x0CD5, 0x0CD6), (0x0D3E, 0x0D3E),
  (0x0D57, 0x0D57), (0x0DCF, 0x0DCF), (0x0DDF, 0x0DDF), (0x1ABE, 0x1ABE), (0x1B35, 0x1B35),
  (0x200C, 0x200C), (0x20DD, 0x20E0), (0x20E2, 0x20E4), (0x302E, 0x302F), (0xA670, 0xA672),
  (0xFF9E, 0xFF9F), (0x1133E, 0x1133E), (0x11357, 0x11357), (0x114B0, 0x114B0), (0x114BD, 0x114BD),
  (0x115AF, 0x115AF), (0x11930, 0x11930), (0x1D165, 0x1D165), (0x1D16E, 0x1D172),
  (0x1F3FB, 0x1F3FF), (0xE0020, 0xE007F)]

/-- Marks with a width that join the character before them. -/
def spacingMarks : List (Nat × Nat) := [
  (0x0903, 0x0903), (0x093B, 0x093B), (0x093E, 0x0940), (0x0949, 0x094C), (0x094E, 0x094F),
  (0x0982, 0x0983), (0x09BF, 0x09C0), (0x09C7, 0x09C8), (0x09CB, 0x09CC), (0x0A03, 0x0A03),
  (0x0A3E, 0x0A40), (0x0A83, 0x0A83), (0x0ABE, 0x0AC0), (0x0AC9, 0x0AC9), (0x0ACB, 0x0ACC),
  (0x0B02, 0x0B03), (0x0B40, 0x0B40), (0x0B47, 0x0B48), (0x0B4B, 0x0B4C), (0x0BBF, 0x0BBF),
  (0x0BC1, 0x0BC2), (0x0BC6, 0x0BC8), (0x0BCA, 0x0BCC), (0x0C01, 0x0C03), (0x0C41, 0x0C44),
  (0x0C82, 0x0C83), (0x0CBE, 0x0CBE), (0x0CC0, 0x0CC1), (0x0CC3, 0x0CC4), (0x0CC7, 0x0CC8),
  (0x0CCA, 0x0CCB), (0x0CF3, 0x0CF3), (0x0D02, 0x0D03), (0x0D3F, 0x0D40), (0x0D46, 0x0D48),
  (0x0D4A, 0x0D4C), (0x0D82, 0x0D83), (0x0DD0, 0x0DD1), (0x0DD8, 0x0DDE), (0x0DF2, 0x0DF3),
  (0x0E33, 0x0E33), (0x0EB3, 0x0EB3), (0x0F3E, 0x0F3F), (0x0F7F, 0x0F7F), (0x1031, 0x1031),
  (0x103B, 0x103C), (0x1056, 0x1057), (0x1084, 0x1084), (0x1715, 0x1715), (0x1734, 0x1734),
  (0x17B6, 0x17B6), (0x17BE, 0x17C5), (0x17C7, 0x17C8), (0x1923, 0x1926), (0x1929, 0x192B),
  (0x1930, 0x1931), (0x1933, 0x1938), (0x1A19, 0x1A1A), (0x1A55, 0x1A55), (0x1A57, 0x1A57),
  (0x1A6D, 0x1A72), (0x1B04, 0x1B04), (0x1B3B, 0x1B3B), (0x1B3D, 0x1B41), (0x1B43, 0x1B44),
  (0x1B82, 0x1B82), (0x1BA1, 0x1BA1), (0x1BA6, 0x1BA7), (0x1BAA, 0x1BAA), (0x1BE7, 0x1BE7),
  (0x1BEA, 0x1BEC), (0x1BEE, 0x1BEE), (0x1BF2, 0x1BF3), (0x1C24, 0x1C2B), (0x1C34, 0x1C35),
  (0x1CE1, 0x1CE1), (0x1CF7, 0x1CF7), (0xA823, 0xA824), (0xA827, 0xA827), (0xA880, 0xA881),
  (0xA8B4, 0xA8C3), (0xA952, 0xA953), (0xA983, 0xA983), (0xA9B4, 0xA9B5), (0xA9BA, 0xA9BB),
  (0xA9BE, 0xA9C0), (0xAA2F, 0xAA30), (0xAA33, 0xAA34), (0xAA4D, 0xAA4D), (0xAAEB, 0xAAEB),
  (0xAAEE, 0xAAEF), (0xAAF5, 0xAAF5), (0xABE3, 0xABE4), (0xABE6, 0xABE7), (0xABE9, 0xABEA),
  (0xABEC, 0xABEC), (0x11000, 0x11000), (0x11002, 0x11002), (0x11082, 0x11082), (0x110B0, 0x110B2),
  (0x110B7, 0x110B8), (0x1112C, 0x1112C), (0x11145, 0x11146), (0x11182, 0x11182),
  (0x111B3, 0x111B5), (0x111BF, 0x111C0), (0x111CE, 0x111CE), (0x1122C, 0x1122E),
  (0x11232, 0x11233), (0x11235, 0x11235), (0x112E0, 0x112E2), (0x11302, 0x11303),
  (0x1133F, 0x1133F), (0x11341, 0x11344), (0x11347, 0x11348), (0x1134B, 0x1134D),
  (0x11362, 0x11363), (0x11435, 0x11437), (0x11440, 0x11441), (0x11445, 0x11445),
  (0x114B1, 0x114B2), (0x114B9, 0x114B9), (0x114BB, 0x114BC), (0x114BE, 0x114BE),
  (0x114C1, 0x114C1), (0x115B0, 0x115B1), (0x115B8, 0x115BB), (0x115BE, 0x115BE),
  (0x11630, 0x11632), (0x1163B, 0x1163C), (0x1163E, 0x1163E), (0x116AC, 0x116AC),
  (0x116AE, 0x116AF), (0x116B6, 0x116B6), (0x11726, 0x11726), (0x1182C, 0x1182E),
  (0x11838, 0x11838), (0x11931, 0x11935), (0x11937, 0x11938), (0x1193D, 0x1193D),
  (0x11940, 0x11940), (0x11942, 0x11942), (0x119D1, 0x119D3), (0x119DC, 0x119DF),
  (0x119E4, 0x119E4), (0x11A39, 0x11A39), (0x11A57, 0x11A58), (0x11A97, 0x11A97),
  (0x11C2F, 0x11C2F), (0x11C3E, 0x11C3E), (0x11CA9, 0x11CA9), (0x11CB1, 0x11CB1),
  (0x11CB4, 0x11CB4), (0x11D8A, 0x11D8E), (0x11D93, 0x11D94), (0x11D96, 0x11D96),
  (0x11EF5, 0x11EF6), (0x11F03, 0x11F03), (0x11F34, 0x11F35), (0x11F3E, 0x11F3F),
  (0x11F41, 0x11F41), (0x16F51, 0x16F87), (0x16FF0, 0x16FF1), (0x1D166, 0x1D166),
  (0x1D16D, 0x1D16D)]

/-- Signs that the character behind them joins. -/
def leadingSigns : List (Nat × Nat) := [
  (0x0600, 0x0605), (0x06DD, 0x06DD), (0x070F, 0x070F), (0x0890, 0x0891), (0x08E2, 0x08E2),
  (0x0D4E, 0x0D4E), (0x110BD, 0x110BD), (0x110CD, 0x110CD), (0x111C2, 0x111C3), (0x1193F, 0x1193F),
  (0x11941, 0x11941), (0x11A3A, 0x11A3A), (0x11A84, 0x11A89), (0x11D46, 0x11D46),
  (0x11F02, 0x11F02)]

/-- Symbols that may be joined to one. -/
def pictographs : List (Nat × Nat) := [
  (0x00A9, 0x00A9), (0x00AE, 0x00AE), (0x203C, 0x203C), (0x2049, 0x2049), (0x2122, 0x2122),
  (0x2139, 0x2139), (0x2194, 0x2199), (0x21A9, 0x21AA), (0x231A, 0x231B), (0x2328, 0x2328),
  (0x2388, 0x2388), (0x23CF, 0x23CF), (0x23E9, 0x23F3), (0x23F8, 0x23FA), (0x24C2, 0x24C2),
  (0x25AA, 0x25AB), (0x25B6, 0x25B6), (0x25C0, 0x25C0), (0x25FB, 0x25FE), (0x2600, 0x2605),
  (0x2607, 0x2612), (0x2614, 0x2685), (0x2690, 0x2705), (0x2708, 0x2712), (0x2714, 0x2714),
  (0x2716, 0x2716), (0x271D, 0x271D), (0x2721, 0x2721), (0x2728, 0x2728), (0x2733, 0x2734),
  (0x2744, 0x2744), (0x2747, 0x2747), (0x274C, 0x274C), (0x274E, 0x274E), (0x2753, 0x2755),
  (0x2757, 0x2757), (0x2763, 0x2767), (0x2795, 0x2797), (0x27A1, 0x27A1), (0x27B0, 0x27B0),
  (0x27BF, 0x27BF), (0x2934, 0x2935), (0x2B05, 0x2B07), (0x2B1B, 0x2B1C), (0x2B50, 0x2B50),
  (0x2B55, 0x2B55), (0x3030, 0x3030), (0x303D, 0x303D), (0x3297, 0x3297), (0x3299, 0x3299),
  (0x1F000, 0x1F0FF), (0x1F10D, 0x1F10F), (0x1F12F, 0x1F12F), (0x1F16C, 0x1F171),
  (0x1F17E, 0x1F17F), (0x1F18E, 0x1F18E), (0x1F191, 0x1F19A), (0x1F1AD, 0x1F1E5),
  (0x1F201, 0x1F20F), (0x1F21A, 0x1F21A), (0x1F22F, 0x1F22F), (0x1F232, 0x1F23A),
  (0x1F23C, 0x1F23F), (0x1F249, 0x1F3FA), (0x1F400, 0x1F53D), (0x1F546, 0x1F64F),
  (0x1F680, 0x1F6FF), (0x1F774, 0x1F77F), (0x1F7D5, 0x1F7FF), (0x1F80C, 0x1F80F),
  (0x1F848, 0x1F84F), (0x1F85A, 0x1F85F), (0x1F888, 0x1F88F), (0x1F8AE, 0x1F8FF),
  (0x1F90C, 0x1F93A), (0x1F93C, 0x1F945), (0x1F947, 0x1FAFF), (0x1FC00, 0x1FFFD)]

/-! ## Roles -/

/-- What a character does at the borders of clusters. -/
inductive Role where
  | carriageReturn
  | lineFeed
  | control
  /-- A mark that joins the character before it. -/
  | mark
  /-- The character that joins symbols. -/
  | joiner
  /-- A mark with a width. -/
  | spacingMark
  /-- A sign that the next character joins. -/
  | leadingSign
  | pictograph
  | flagLetter
  /-- The first consonant of a syllable. -/
  | initialJamo
  /-- The vowel of a syllable. -/
  | medialJamo
  /-- The last consonant of a syllable. -/
  | finalJamo
  /-- A syllable without a last consonant. -/
  | openSyllable
  /-- A syllable with a last consonant. -/
  | closedSyllable
  | other
  deriving DecidableEq, Repr

namespace Role

/-- The role of a character. -/
def ofCode (c : Nat) : Role :=
  let isIn := CharClass.inRanges c
  if 0x20 ≤ c && c < 0x7F then other
  else if c = 0x0D then carriageReturn
  else if c = 0x0A then lineFeed
  else if isIn controls then control
  else if CharClass.isNonspacingMark c || isIn otherMarks then mark
  else if c = 0x200D then joiner
  else if isIn spacingMarks then spacingMark
  else if isIn leadingSigns then leadingSign
  else if isIn [(0x1F1E6, 0x1F1FF)] then flagLetter
  else if isIn pictographs then pictograph
  else if isIn [(0x1100, 0x115F), (0xA960, 0xA97C)] then initialJamo
  else if isIn [(0x1160, 0x11A7), (0xD7B0, 0xD7C6)] then medialJamo
  else if isIn [(0x11A8, 0x11FF), (0xD7CB, 0xD7FB)] then finalJamo
  else if isIn [(0xAC00, 0xD7A3)] then
    if (c - 0xAC00) % 28 = 0 then openSyllable else closedSyllable
  else other

/-- Whether no character joins this one from either side. -/
def isBreak (r : Role) : Bool := [carriageReturn, lineFeed, control].contains r

/-- Whether the character joins any before it. -/
def isTrailing (r : Role) : Bool := [mark, joiner, spacingMark].contains r

/-- Whether two characters are parts of a syllable. -/
def isSyllable (r next : Role) : Bool :=
  match r with
  | initialJamo => [initialJamo, medialJamo, openSyllable, closedSyllable].contains next
  | medialJamo | openSyllable => [medialJamo, finalJamo].contains next
  | finalJamo | closedSyllable => next = finalJamo
  | _ => false

end Role

/-! ## Clusters -/

/-- What is known of the text before a character. -/
structure Place where
  /-- The role of the last character. -/
  last : Role
  /-- Whether the text ends in a pictograph with marks, perhaps with a joiner behind them. -/
  isPicture : Bool := last = .pictograph
  /-- Whether the last character is the second letter of a flag. -/
  isPaired : Bool := false

namespace Place

/-- Whether a character joins the text before it. -/
def joins (p : Place) (next : Role) : Bool :=
  if p.last.isBreak || next.isBreak then p.last = .carriageReturn && next = .lineFeed
  else
    next.isTrailing || p.last = .leadingSign || p.last.isSyllable next
      || (p.last = .joiner && p.isPicture && next = .pictograph)
      || (p.last = .flagLetter && !p.isPaired && next = .flagLetter)

/-- The place behind a character. -/
def after (p : Place) (next : Role) : Place where
  last := next
  isPicture :=
    next = .pictograph || (p.isPicture && p.last != .joiner && [.mark, .joiner].contains next)
  isPaired := p.last = .flagLetter && !p.isPaired && next = .flagLetter

end Place

/-- The clusters of the text whose first cluster starts with the characters `cluster`, the last one
first. -/
def splitFrom (place : Place) (cluster : List Nat) : List Nat → List (List Nat)
  | [] => [cluster.reverse]
  | c :: rest =>
    let role := Role.ofCode c
    if place.joins role then splitFrom (place.after role) (c :: cluster) rest
    else cluster.reverse :: splitFrom (place.after role) [c] rest

/-- The clusters of a text. -/
def split : List Nat → List (List Nat)
  | [] => []
  | c :: rest => splitFrom { last := Role.ofCode c } [c] rest

end GetterRename.Cluster
