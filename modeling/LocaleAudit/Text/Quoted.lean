import LocaleAudit.Text.Width

/-!
# LocaleAudit.Text.Quoted

Text in quotes for messages. What would not be seen, or not as it is, is escaped.
-/

namespace LocaleAudit.Text.Quoted

/-- Characters that cannot be seen or are not assigned. -/
def hiddenRanges : List (Nat × Nat) :=
  [(0x0, 0x1f), (0x7f, 0xa0), (0xad, 0xad), (0x5f5, 0x605), (0x61c, 0x61c), (0x6dd, 0x6dd),
   (0x70e, 0x70f), (0x88f, 0x897), (0x8e2, 0x8e2), (0x1680, 0x1680), (0x180e, 0x180e),
   (0x1acf, 0x1aff), (0x1fff, 0x200f), (0x2028, 0x202f), (0x205f, 0x206f), (0x2ffc, 0x3000),
   (0xd7fc, 0xf8ff), (0xfefd, 0xff00), (0xffef, 0xfffb), (0x101a1, 0x101cf), (0x101fe, 0x1027f),
   (0x103d6, 0x103ff), (0x105bd, 0x105ff), (0x107bb, 0x107ff), (0x108b0, 0x108df),
   (0x10940, 0x1097f), (0x10bb0, 0x10bff), (0x10c49, 0x10c7f), (0x10d3a, 0x10e5f),
   (0x10eb2, 0x10eff), (0x110bd, 0x110bd), (0x110c3, 0x110cf), (0x1123f, 0x1127f),
   (0x11375, 0x113ff), (0x114da, 0x1157f), (0x116ca, 0x116ff), (0x11747, 0x117ff),
   (0x1183c, 0x1189f), (0x1195a, 0x1199f), (0x11af9, 0x11bff), (0x11cb7, 0x11cff),
   (0x11daa, 0x11edf), (0x11ef9, 0x11faf), (0x1239a, 0x123ff), (0x12544, 0x12f8f),
   (0x1342f, 0x143ff), (0x14647, 0x167ff), (0x16b90, 0x16e3f), (0x16e9b, 0x16eff),
   (0x16fa0, 0x16fdf), (0x18cd6, 0x18cff), (0x18d09, 0x1afef), (0x1b123, 0x1b14f),
   (0x1b2fc, 0x1bbff), (0x1bca0, 0x1ceff), (0x1cfc4, 0x1cfff), (0x1d173, 0x1d17a),
   (0x1d246, 0x1d2df), (0x1d379, 0x1d3ff), (0x1dab0, 0x1deff), (0x1df1f, 0x1dfff),
   (0x1e02b, 0x1e0ff), (0x1e150, 0x1e28f), (0x1e300, 0x1e7df), (0x1e8d7, 0x1e8ff),
   (0x1e960, 0x1ec70), (0x1ecb5, 0x1ed00), (0x1ed3e, 0x1edff), (0x1eebc, 0x1eeef),
   (0x1eef2, 0x1efff), (0x1f1ae, 0x1f1e5), (0x1f266, 0x1f2ff), (0x1f8b2, 0x1f8ff),
   (0x1fbfa, 0x1ffff), (0x2ebe1, 0x2f7ff), (0x2fa1e, 0x2ffff), (0x3134b, 0xe00ff),
   (0xe01f0, 0x10ffff)]

/-- A mark that is shown on the character in front of it. -/
def isMarkOnOther (c : Char) : Bool :=
  inRanges Width.zeroRanges c &&
    !inRanges [(0x1160, 0x11ff), (0xa8fa, 0xa8fa), (0xd7b0, 0xd7fb)] c

/-- A character in quotes. -/
def escaped (c : Char) : List Char :=
  if c = '"' then ['\\', '"']
  else if c = '\\' then ['\\', '\\']
  else if c = '\x00' then ['\\', '0']
  else if c = '\n' then ['\\', 'n']
  else if c = '\r' then ['\\', 'r']
  else if c = '\t' then ['\\', 't']
  else if inRanges hiddenRanges c || isMarkOnOther c then
    "\\u\x7b".toList ++ Nat.toDigits 16 c.toNat ++ ['\x7d']
  else [c]

/-- A text in quotes. -/
def encode (text : String) : String :=
  String.ofList ('"' :: (text.toList.flatMap escaped ++ ['"']))

end LocaleAudit.Text.Quoted
