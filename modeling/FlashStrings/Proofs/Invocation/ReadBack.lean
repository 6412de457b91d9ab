import FlashStrings.Proofs.Text.Quoted
import FlashStrings.Invocation.Piece

/-!
# Pieces and their text

A text without an unclosed literal is made of pieces that are read off it again: characters
that are no quotes, and closed literals (`Argument.ReadsBack`).  Reading such pieces off
their text gives the same pieces (`read_text`), and every reading gives such pieces
(`readsBack_of_mem_read`).  So a reading goes on behind a text without an unclosed literal
(`read_append_of_closed`).
-/

namespace FlashStrings

namespace Argument

/-! ## Texts of pieces -/

theorem text_char (c : Char) (ps : List Piece) : text (.char c :: ps) = c :: text ps := rfl

theorem text_literal (q : Char) (body : List Char) (ps : List Piece) :
    text (.literal q body :: ps) = q :: (body ++ q :: text ps) := by
  simp [text, Piece.text]

theorem text_append (ps qs : List Piece) : text (ps ++ qs) = text ps ++ text qs :=
  List.flatMap_append

theorem text_map_char (s : List Char) : text (s.map .char) = s := by
  rw [text, List.flatMap_map]
  exact List.flatMap_singleton' s

/-! ## Reading back -/

/-- The piece is read off its text: a character that is no quote, or a closed literal. -/
def ReadsBack : Piece → Prop
  | .char c => ¬(c = '"' ∨ c = '\'')
  | .literal q body => (q = '"' ∨ q = '\'') ∧ ∀ t, quoted? q (body ++ q :: t) = some (body, t)

/-- Pieces are read off their text, and what is behind it is read after them. -/
theorem read_text_append_of_readsBack {ps : List Piece} (h : ∀ p ∈ ps, ReadsBack p)
    (s : List Char) : read (text ps ++ s) = (ps ++ (read s).1, (read s).2) := by
  induction ps with
  | nil => rfl
  | cons p ps ih =>
    obtain ⟨hp, hps⟩ := List.forall_mem_cons.1 h
    cases p with
    | char c =>
      rw [text_char, List.cons_append, read, if_neg hp, ih hps]
      rfl
    | literal q body =>
      obtain ⟨hq, hbody⟩ := hp
      rw [text_literal, List.cons_append, List.append_assoc, List.cons_append, read, if_pos hq]
      split
      · next heq =>
        obtain ⟨rfl, rfl⟩ := Prod.mk.inj (Option.some.inj ((hbody _).symm.trans heq))
        rw [ih hps]
        rfl
      · next heq => simp [hbody] at heq

theorem read_text {ps : List Piece} (h : ∀ p ∈ ps, ReadsBack p) : read (text ps) = (ps, []) := by
  have hread := read_text_append_of_readsBack h []
  rwa [List.append_nil, read, List.append_nil] at hread

/-- The pieces of a text are read off their own text. -/
theorem readsBack_of_mem_read (s : List Char) : ∀ p ∈ (read s).1, ReadsBack p := by
  fun_induction read s with
  | case1 => exact List.forall_mem_nil _
  | case2 c s hquote body rest hbody _ ps tail hread ih =>
    rw [hread] at ih
    exact List.forall_mem_cons.2 ⟨⟨hquote, quoted?_body hbody⟩, ih⟩
  | case3 => exact List.forall_mem_nil _
  | case4 c s hquote ps tail hread ih =>
    rw [hread] at ih
    exact List.forall_mem_cons.2 ⟨hquote, ih⟩

/-- Behind a text without an unclosed literal the reading goes on. -/
theorem read_append_of_closed {s : List Char} (h : (read s).2 = []) (t : List Char) :
    read (s ++ t) = ((read s).1 ++ (read t).1, (read t).2) := by
  have htext : text (read s).1 = s := by
    have hread := text_read s
    rwa [h, List.append_nil] at hread
  have hread := read_text_append_of_readsBack (readsBack_of_mem_read s) t
  rwa [htext] at hread

end Argument

end FlashStrings
