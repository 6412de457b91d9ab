import FlashStrings.Digest.Sha256
import FlashStrings.Value

/-!
# Content hashes

The hash of a value stands for its content: the digest of the fallback and of
the locales in the order of their codes, each part behind a byte that begins it.
-/

namespace FlashStrings

/-- The bytes that the hash of a fallback and texts by locale is made of. -/
def contentBytes (fallback : Option String) (locales : List (String × String)) : Bytes :=
  (match fallback with
    | some text => 1 :: Utf8.encode text
    | none => [0]) ++
  locales.flatMap fun (code, text) => 0 :: Utf8.encode code ++ 0 :: Utf8.encode text

/-- The content hash of a fallback and texts by locale. -/
def hashTexts (fallback : Option String) (locales : List (String × String)) : String :=
  sha256Hex (contentBytes fallback locales)

/-- The content hash of a value. -/
def Value.contentHash (v : Value) : String := hashTexts v.fallback v.locales.entries

end FlashStrings
