import KeyLedger.Digest.Sha256
import KeyLedger.Text.Hex
import KeyLedger.Text.Normal

/-!
# Content hashes

The identity of a piece of text is the first eight bytes of the SHA-256 of its normal form, as
sixteen hexadecimal digits. Texts with one normal form therefore have one content hash.

## Main definitions

* `hash64` — sixteen hexadecimal digits of a text as it stands
* `contentHash` — sixteen hexadecimal digits of its normal form
-/

namespace KeyLedger.Digest

/-- A stable 64-bit hash: the first eight bytes of the SHA-256 of the UTF-8 form, in
hexadecimal. -/
def hash64 (text : String) : String :=
  String.ofList (((Sha256.digest text.toUTF8.toList).take 8).flatMap Text.hexByte)

/-- The hash of the normal form of a text. -/
def contentHash (text : String) : String :=
  hash64 (Text.normalForm text)

end KeyLedger.Digest
