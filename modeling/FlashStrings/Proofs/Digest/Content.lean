import FlashStrings.Digest.Content
import FlashStrings.Proofs.SortedMap
import FlashStrings.Proofs.Text.Marked

/-!
# What a content hash tells

The message that the hash of a value is made of can be read back as long as no
text and no locale code holds U+0000: every part begins with a byte that does not
occur inside the parts before it.  So values with one message are equal
(`contentBytes_inj`), and values with one hash are equal as long as SHA-256 has no
collision among the messages (`Value.eq_of_contentHash_eq`).
-/

namespace FlashStrings

/-- No two of the messages have one digest. -/
def CollisionFree (hashed : Bytes → Prop) : Prop :=
  ∀ a b, hashed a → hashed b → sha256Hex a = sha256Hex b → a = b

/-! ## Messages -/

/-- The part of a message for a locale. -/
def localeBytes (e : String × String) : Bytes := 0 :: Utf8.encode e.1 ++ 0 :: Utf8.encode e.2

theorem marked_flatMap_localeBytes (l : List (String × String)) :
    Marked 0 (l.flatMap localeBytes) := by
  cases l with
  | nil => exact marked_nil 0
  | cons e l => exact marked_cons 0 _

theorem flatMap_localeBytes_inj {l l' : List (String × String)}
    (hl : ∀ e ∈ l, '\x00' ∉ e.1.toList ∧ '\x00' ∉ e.2.toList)
    (hl' : ∀ e ∈ l', '\x00' ∉ e.1.toList ∧ '\x00' ∉ e.2.toList)
    (h : l.flatMap localeBytes = l'.flatMap localeBytes) : l = l' := by
  induction l generalizing l' with
  | nil =>
    cases l' with
    | nil => rfl
    | cons e l' => simp [localeBytes] at h
  | cons e l ih =>
    cases l' with
    | nil => simp [localeBytes] at h
    | cons e' l' =>
      obtain ⟨code, text⟩ := e
      obtain ⟨code', text'⟩ := e'
      obtain ⟨hc, ht⟩ := hl _ List.mem_cons_self
      obtain ⟨hc', ht'⟩ := hl' _ List.mem_cons_self
      simp only [List.flatMap_cons, localeBytes, List.append_assoc, List.cons_append] at h
      obtain ⟨hcode, hrest⟩ := append_inj_of_marked (Utf8.zero_not_mem_encode hc)
        (Utf8.zero_not_mem_encode hc') (marked_cons _ _) (marked_cons _ _) (List.cons.inj h).2
      obtain ⟨htext, hlocales⟩ := append_inj_of_marked (Utf8.zero_not_mem_encode ht)
        (Utf8.zero_not_mem_encode ht') (marked_flatMap_localeBytes l)
        (marked_flatMap_localeBytes l') (List.cons.inj hrest).2
      obtain rfl := Utf8.encode_injective hcode
      obtain rfl := Utf8.encode_injective htext
      rw [ih (fun x hx => hl x (List.mem_cons_of_mem _ hx))
        (fun x hx => hl' x (List.mem_cons_of_mem _ hx)) hlocales]

/-- Fallbacks and texts by locale without U+0000 are told by their message. -/
theorem contentBytes_inj {fallback fallback' : Option String} {l l' : List (String × String)}
    (hf : ∀ text, fallback = some text → '\x00' ∉ text.toList)
    (hf' : ∀ text, fallback' = some text → '\x00' ∉ text.toList)
    (hl : ∀ e ∈ l, '\x00' ∉ e.1.toList ∧ '\x00' ∉ e.2.toList)
    (hl' : ∀ e ∈ l', '\x00' ∉ e.1.toList ∧ '\x00' ∉ e.2.toList)
    (h : contentBytes fallback l = contentBytes fallback' l') : fallback = fallback' ∧ l = l' := by
  cases fallback with
  | none =>
    cases fallback' with
    | none => exact ⟨rfl, flatMap_localeBytes_inj hl hl' (List.cons.inj h).2⟩
    | some text' => exact absurd (List.cons.inj h).1 (by decide)
  | some text =>
    cases fallback' with
    | none => exact absurd (List.cons.inj h).1 (by decide)
    | some text' =>
      obtain ⟨htext, hlocales⟩ := append_inj_of_marked (Utf8.zero_not_mem_encode (hf text rfl))
        (Utf8.zero_not_mem_encode (hf' text' rfl)) (marked_flatMap_localeBytes l)
        (marked_flatMap_localeBytes l') (List.cons.inj h).2
      exact ⟨congrArg some (Utf8.encode_injective htext), flatMap_localeBytes_inj hl hl' hlocales⟩

/-! ## Values -/

namespace Value

/-- The message that the content hash is made of. -/
def message (v : Value) : Bytes := contentBytes v.fallback v.locales.entries

/-- No text and no locale code holds U+0000. -/
def NulFree (v : Value) : Prop :=
  (∀ text, v.fallback = some text → '\x00' ∉ text.toList) ∧
    ∀ e ∈ v.locales.entries, '\x00' ∉ e.1.toList ∧ '\x00' ∉ e.2.toList

theorem message_inj {v w : Value} (hv : v.NulFree) (hw : w.NulFree) (h : v.message = w.message) :
    v = w := by
  obtain ⟨hfallback, hlocales⟩ := contentBytes_inj hv.1 hw.1 hv.2 hw.2 h
  obtain ⟨fallback, locales⟩ := v
  obtain ⟨fallback', locales'⟩ := w
  obtain rfl : fallback = fallback' := hfallback
  obtain rfl : locales = locales' := SortedMap.ext_mem fun e => by rw [hlocales]
  rfl

/-- Values with one hash are equal. -/
theorem eq_of_contentHash_eq {hashed : Bytes → Prop} (hfree : CollisionFree hashed) {v w : Value}
    (hv : v.NulFree) (hw : w.NulFree) (hmv : hashed v.message) (hmw : hashed w.message)
    (h : v.contentHash = w.contentHash) : v = w :=
  message_inj hv hw (hfree _ _ hmv hmw h)

end Value

end FlashStrings
