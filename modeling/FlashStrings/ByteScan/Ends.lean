import FlashStrings.Source.Lexeme
import FlashStrings.Text.Utf8

/-!
# Ends of lexemes by byte offsets

A scan that keeps its place as a byte offset reads one byte at a time.  It may stop
inside of a character that takes several bytes: none of these bytes is a byte of an
ASCII character, and every mark that the scan looks for is one.

A part of the text can be taken only between two ends of characters, the first of them
not behind the second (`slice?_eq_some_iff`).  `slice?` has no answer else, and neither
has what is made of it.

The functions on lists of characters in `Lexeme` answer the same
(`Proofs/ByteScan/Ends`).
-/

namespace FlashStrings

namespace ByteScan

/-- The bytes of a text. -/
def utf8 (s : List Char) : Bytes := s.flatMap String.utf8EncodeChar

/-- The number of bytes of a text. -/
def byteSize (s : List Char) : Nat := (utf8 s).length

/-- The byte at an offset, as the character with its number. -/
def byteAt? (bytes : Bytes) (i : Nat) : Option Char := bytes[i]?.map Char.ofUInt8

theorem lt_length_of_byteAt? {bytes : Bytes} {i : Nat} {c : Char} (h : byteAt? bytes i = some c) :
    i < bytes.length := by
  obtain ⟨b, hb, -⟩ := Option.map_eq_some_iff.1 h
  exact (List.getElem?_eq_some_iff.1 hb).1

/-! ## Parts of a text -/

/-- The text before an offset and the text from there on. -/
def splitAt? : Nat → List Char → Option (List Char × List Char)
  | 0, s => some ([], s)
  | _ + 1, [] => none
  | n + 1, c :: s =>
    if c.utf8Size ≤ n + 1 then
      (splitAt? (n + 1 - c.utf8Size) s).map fun (front, rest) => (c :: front, rest)
    else none

/-- The text between two offsets. -/
def slice? (text : List Char) (start stop : Nat) : Option (List Char) :=
  if start ≤ stop then do
    let (_, rest) ← splitAt? start text
    let (part, _) ← splitAt? (stop - start) rest
    return part
  else none

/-- The offset of the first occurrence of a word. -/
def find? (word : List Char) : List Char → Option Nat
  | [] => if word.isEmpty then some 0 else none
  | c :: s =>
    if word.isPrefixOf (c :: s) then some 0 else (find? word s).map (c.utf8Size + ·)

/-! ## Names and literals -/

/-- The first offset from `i` on with no byte that satisfies `p`. -/
def skipWhile (p : Char → Bool) (bytes : Bytes) (i : Nat) : Nat :=
  match h : byteAt? bytes i with
  | none => i
  | some c =>
    have := lt_length_of_byteAt? h
    if p c then skipWhile p bytes (i + 1) else i
termination_by bytes.length - i

/-- The end of the name that goes on at an offset. -/
def nameEnd (bytes : Bytes) (i : Nat) : Nat := skipWhile isNameChar bytes i

theorem le_skipWhile (p : Char → Bool) (bytes : Bytes) (i : Nat) : i ≤ skipWhile p bytes i := by
  fun_induction skipWhile p bytes i <;> omega

theorem le_nameEnd (bytes : Bytes) (i : Nat) : i ≤ nameEnd bytes i := le_skipWhile _ bytes i

theorem lt_nameEnd {bytes : Bytes} {i : Nat} {c : Char} (h : byteAt? bytes i = some c)
    (hc : isNameChar c = true) : i < nameEnd bytes i := by
  have hle : i + 1 ≤ skipWhile isNameChar bytes (i + 1) := le_nameEnd bytes (i + 1)
  rw [nameEnd, skipWhile]
  split
  · next heq => simp [h] at heq
  · next d heq =>
    obtain rfl := Option.some.inj (h.symm.trans heq)
    rw [if_pos hc]
    omega

/-- The offset behind the quote that closes a literal, from an offset inside of it.  A
backslash takes the byte behind it along. -/
def quotedEnd? (q : Char) (bytes : Bytes) (i : Nat) : Option Nat :=
  match h : byteAt? bytes i with
  | none => none
  | some c =>
    have := lt_length_of_byteAt? h
    if c = '\\' then quotedEnd? q bytes (i + 2)
    else if c = '\n' then none
    else if c = q then some (i + 1)
    else quotedEnd? q bytes (i + 1)
termination_by bytes.length - i

/-- The end of the closed literal that begins at an offset. -/
def literalEnd? (bytes : Bytes) (i : Nat) : Option Nat :=
  match byteAt? bytes i with
  | some q => if q = '"' ∨ q = '\'' then quotedEnd? q bytes (i + 1) else none
  | none => none

theorem lt_quotedEnd? {q : Char} {bytes : Bytes} {i j : Nat} (h : quotedEnd? q bytes i = some j) :
    i < j := by
  fun_induction quotedEnd? q bytes i with
  | case1 => cases h
  | case2 i _ _ ih => exact Nat.lt_trans (by omega) (ih h)
  | case3 => cases h
  | case4 i =>
    obtain rfl := Option.some.inj h
    exact Nat.lt_succ_self i
  | case5 i _ _ _ _ _ _ ih => exact Nat.lt_trans (by omega) (ih h)

theorem lt_literalEnd? {bytes : Bytes} {i j : Nat} (h : literalEnd? bytes i = some j) : i < j := by
  unfold literalEnd? at h
  split at h
  · split at h
    · exact Nat.lt_trans (Nat.lt_succ_self i) (lt_quotedEnd? h)
    · cases h
  · cases h

/-! ## Comments -/

/-- The offset behind the continuation of a line: a backslash and the newline behind it. -/
def continuationEnd? (bytes : Bytes) (i : Nat) : Option Nat :=
  if byteAt? bytes i = some '\\' then
    if byteAt? bytes (i + 1) = some '\n' then some (i + 2)
    else if byteAt? bytes (i + 1) = some '\r' ∧ byteAt? bytes (i + 2) = some '\n' then some (i + 3)
    else none
  else none

theorem lt_continuationEnd? {bytes : Bytes} {i j : Nat} (h : continuationEnd? bytes i = some j) :
    i < j := by
  unfold continuationEnd? at h
  split at h
  · split at h
    · exact Option.some.inj h ▸ (by omega)
    · split at h
      · exact Option.some.inj h ▸ (by omega)
      · cases h
  · cases h

/-- The offset of the newline that ends a line comment, from an offset inside of it. -/
def lineCommentEnd (bytes : Bytes) (i : Nat) : Nat :=
  match h : byteAt? bytes i with
  | none => bytes.length
  | some c =>
    have := lt_length_of_byteAt? h
    match hc : continuationEnd? bytes i with
    | some j =>
      have := lt_continuationEnd? hc
      lineCommentEnd bytes j
    | none => if c = '\n' then i else lineCommentEnd bytes (i + 1)
termination_by bytes.length - i

/-- The offset behind the mark that ends a block comment, from an offset inside of it. -/
def blockCommentEnd (bytes : Bytes) (i : Nat) : Nat :=
  match h : byteAt? bytes (i + 1) with
  | none => bytes.length
  | some next =>
    have := lt_length_of_byteAt? h
    if byteAt? bytes i = some '*' ∧ next = '/' then i + 2 else blockCommentEnd bytes (i + 1)
termination_by bytes.length - i

/-- The end of the comment that begins at an offset. -/
def commentEnd? (bytes : Bytes) (i : Nat) : Option Nat :=
  if byteAt? bytes i = some '/' then
    match byteAt? bytes (i + 1) with
    | some '/' => some (lineCommentEnd bytes (i + 2))
    | some '*' => some (blockCommentEnd bytes (i + 2))
    | _ => none
  else none

theorem lt_lineCommentEnd {bytes : Bytes} {i k : Nat} (hk : k < i) (h : k < bytes.length) :
    k < lineCommentEnd bytes i := by
  fun_induction lineCommentEnd bytes i <;> omega

theorem lt_blockCommentEnd {bytes : Bytes} {i k : Nat} (hk : k < i) (h : k < bytes.length) :
    k < blockCommentEnd bytes i := by
  fun_induction blockCommentEnd bytes i <;> omega

theorem lt_commentEnd? {bytes : Bytes} {i j : Nat} (h : commentEnd? bytes i = some j) : i < j := by
  unfold commentEnd? at h
  split at h
  · next hi =>
    have hlt := lt_length_of_byteAt? hi
    split at h
    · exact Option.some.inj h ▸ lt_lineCommentEnd (by omega) hlt
    · exact Option.some.inj h ▸ lt_blockCommentEnd (by omega) hlt
    · cases h
  · cases h

/-! ## Lexemes, white space and lines -/

/-- The end of the lexeme at an offset: of a comment, of a closed literal, or of the byte. -/
def lexemeEnd (bytes : Bytes) (i : Nat) : Nat :=
  ((commentEnd? bytes i).or (literalEnd? bytes i)).getD (i + 1)

theorem lt_lexemeEnd (bytes : Bytes) (i : Nat) : i < lexemeEnd bytes i := by
  unfold lexemeEnd
  match hc : commentEnd? bytes i with
  | some j => exact lt_commentEnd? hc
  | none =>
    match hl : literalEnd? bytes i with
    | some j => exact lt_literalEnd? hl
    | none => exact Nat.lt_succ_self i

/-- The first offset from `i` on that is in no white space and in no comment. -/
def triviaEnd (bytes : Bytes) (i : Nat) : Nat :=
  match h : byteAt? bytes i with
  | none => i
  | some c =>
    have := lt_length_of_byteAt? h
    if isCodeBlank c then triviaEnd bytes (i + 1)
    else
      match hc : commentEnd? bytes i with
      | some j =>
        have := lt_commentEnd? hc
        triviaEnd bytes j
      | none => i
termination_by bytes.length - i

theorem le_triviaEnd (bytes : Bytes) (i : Nat) : i ≤ triviaEnd bytes i := by
  fun_induction triviaEnd bytes i <;> omega

/-- The end of the line of a directive, with the lines that continue it. -/
def logicalLineEnd (bytes : Bytes) (i : Nat) : Nat :=
  match h : byteAt? bytes i with
  | none => bytes.length
  | some c =>
    have := lt_length_of_byteAt? h
    have := lt_lexemeEnd bytes i
    match hc : continuationEnd? bytes i with
    | some j =>
      have := lt_continuationEnd? hc
      logicalLineEnd bytes j
    | none => if c = '\n' then i else logicalLineEnd bytes (lexemeEnd bytes i)
termination_by bytes.length - i

theorem lt_logicalLineEnd {bytes : Bytes} {i k : Nat} (hk : k < i) (h : k < bytes.length) :
    k < logicalLineEnd bytes i := by
  fun_induction logicalLineEnd bytes i <;> omega

/-! ## Raw strings -/

/-- The end of a raw string whose opening quote stands at an offset. -/
def rawStringEnd? (text : List Char) (i : Nat) : Option Nat := do
  let rest ← slice? text (i + 1) (byteSize text)
  match find? ['('] rest with
  | none => return i + 1
  | some width =>
    let delimiter ← slice? rest 0 width
    if byteSize delimiter > 16 || delimiter.any Lexeme.isBarredFromDelimiter then return i + 1
    else
      let closing := ')' :: delimiter ++ ['"']
      let body := i + 1 + width + 1
      match find? closing (← slice? text body (byteSize text)) with
      | some width => return body + width + byteSize closing
      | none => return byteSize text

theorem lt_rawStringEnd? {text : List Char} {i j : Nat} (hi : i < byteSize text)
    (h : rawStringEnd? text i = some j) : i < j := by
  obtain ⟨rest, -, h⟩ := Option.bind_eq_some_iff.1 h
  split at h
  · exact Option.some.inj h ▸ Nat.lt_succ_self i
  · obtain ⟨delimiter, -, h⟩ := Option.bind_eq_some_iff.1 h
    split at h
    · exact Option.some.inj h ▸ Nat.lt_succ_self i
    · obtain ⟨body, -, h⟩ := Option.bind_eq_some_iff.1 h
      split at h
      · exact Option.some.inj h ▸ (by omega)
      · exact Option.some.inj h ▸ hi

end ByteScan

end FlashStrings
