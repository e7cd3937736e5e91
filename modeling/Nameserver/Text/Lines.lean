import Nameserver.Text.Basic
/-!
# Lines of a text

A line ends at a line feed, and a carriage return right before it belongs to the end of the line.
Octets after the last line feed are a line too.  `isUtf8` tells whether octets are text at all.
-/

namespace Nameserver.Text

/-- The lines of a text, without their ends. -/
def lines : Text → List Text
  | [] => []
  | carriageReturn :: lineFeed :: rest => [] :: lines rest
  | lineFeed :: rest => [] :: lines rest
  | o :: rest => consFirst o (lines rest)

/-- The octets that continue a character. -/
def isContinuation (o : UInt8) : Bool := 0x80 ≤ o && o ≤ 0xbf

/-- Whether the octets are well-formed UTF-8: each character in its shortest form, no surrogates and
none above U+10FFFF. -/
def isUtf8 : Octets → Bool
  | [] => true
  | a :: rest =>
    if a ≤ 0x7f then isUtf8 rest
    else match rest with
      | [] => false
      | b :: rest =>
        if 0xc2 ≤ a && a ≤ 0xdf then isContinuation b && isUtf8 rest
        else match rest with
          | [] => false
          | c :: rest =>
            if 0xe0 ≤ a && a ≤ 0xef then
              isContinuation b && isContinuation c && (a != 0xe0 || 0xa0 ≤ b) &&
                (a != 0xed || b ≤ 0x9f) && isUtf8 rest
            else match rest with
              | [] => false
              | d :: rest =>
                0xf0 ≤ a && a ≤ 0xf4 && isContinuation b && isContinuation c &&
                  isContinuation d && (a != 0xf0 || 0x90 ≤ b) && (a != 0xf4 || b ≤ 0x8f) &&
                  isUtf8 rest

end Nameserver.Text
