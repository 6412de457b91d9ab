import FlashStrings.Proofs.Glob.Words
import FlashStrings.Proofs.IndexedDatabase.Named
import FlashStrings.Proofs.Invocation.Words
import FlashStrings.Proofs.Text.Class
import FlashStrings.Query

/-!
# What a query finds

A query is asked for the identifiers that match its pattern, with or without the prefix of
the storage symbols (`Database.asked`).  It takes the prefix away and looks for the rest
alone, so an identifier that begins with the prefix itself and is meant as it stands is not
found (`IndexedDatabase.find_misses_prefixed`).

What is found is described for every database, prefix and pattern
(`IndexedDatabase.NamedReachable.finds_by_pattern`).  Behind a prefix that the settings accept the
rest of an accepted pattern is accepted (`Glob.accepts_append`), and identifiers are
patterns for themselves (`Glob.accepts_word`).
-/

namespace FlashStrings

variable {symbolPrefix pattern rest : String}

/-! ## Patterns with the prefix -/

theorem withoutPrefix_append (symbolPrefix rest : String) :
    withoutPrefix symbolPrefix (symbolPrefix ++ rest) = rest := by
  have hbegins : symbolPrefix.toList <+: (symbolPrefix ++ rest).toList :=
    ⟨rest.toList, String.toList_append.symm⟩
  rw [withoutPrefix, if_pos (List.isPrefixOf_iff_prefix.2 hbegins), String.toList_append,
    ← String.length_toList, List.drop_left, String.ofList_toList]

theorem withoutPrefix_of_not_begins (h : ¬symbolPrefix.toList <+: pattern.toList) :
    withoutPrefix symbolPrefix pattern = pattern :=
  if_neg (mt List.isPrefixOf_iff_prefix.1 h)

theorem append_withoutPrefix (h : symbolPrefix.toList <+: pattern.toList) :
    symbolPrefix ++ withoutPrefix symbolPrefix pattern = pattern := by
  obtain ⟨rest, hrest⟩ := h
  have hpattern : symbolPrefix ++ String.ofList rest = pattern :=
    String.toList_inj.1 (by rw [String.toList_append, String.toList_ofList, hrest])
  rw [← hpattern, withoutPrefix_append]

/-- Only a text that does not begin with the prefix stays as it is. -/
theorem withoutPrefix_eq_self_iff (hne : symbolPrefix ≠ "") :
    withoutPrefix symbolPrefix pattern = pattern ↔ ¬symbolPrefix.toList <+: pattern.toList := by
  refine ⟨fun hself hbegins => hne ?_, withoutPrefix_of_not_begins⟩
  have happend := append_withoutPrefix hbegins
  rw [hself] at happend
  exact String.toList_inj.1 (List.append_left_eq_self.1
    (String.toList_append.symm.trans (congrArg String.toList happend)))

theorem mem_of_mem_withoutPrefix {c : Char} (h : c ∈ (withoutPrefix symbolPrefix pattern).toList) :
    c ∈ pattern.toList := by
  rw [withoutPrefix] at h
  split at h
  · rw [String.toList_ofList] at h
    exact List.mem_of_mem_drop h
  · exact h

/-! ## Selections -/

namespace Database

/-- The entries and then the members whose identifiers pass a test, in their order. -/
def select (db : Database) (test : String → Bool) : List Entry :=
  (db.entries ++ db.autoInit).filter fun e => test e.identifier

/-- What a query is asked for: the identifiers that match the pattern or, where it begins
with the prefix, the rest of it. -/
def asked (db : Database) (symbolPrefix pattern : String) : List Entry :=
  db.select fun identifier => Glob.accepts pattern identifier ||
    (symbolPrefix.toList.isPrefixOf pattern.toList &&
      Glob.accepts (withoutPrefix symbolPrefix pattern) identifier)

variable {db : Database} {test test' : String → Bool} {tokens : List Glob.Token}

theorem asked_of_not_begins (h : ¬symbolPrefix.toList <+: pattern.toList) :
    db.asked symbolPrefix pattern = db.select (Glob.accepts pattern) := by
  have hbegins : symbolPrefix.toList.isPrefixOf pattern.toList = false :=
    eq_false_of_ne_true (mt List.isPrefixOf_iff_prefix.1 h)
  simp only [asked, hbegins, Bool.false_and, Bool.or_false]

theorem asked_append (db : Database) (symbolPrefix rest : String) :
    db.asked symbolPrefix (symbolPrefix ++ rest) = db.select fun identifier =>
      Glob.accepts (symbolPrefix ++ rest) identifier || Glob.accepts rest identifier := by
  have hbegins : symbolPrefix.toList.isPrefixOf (symbolPrefix ++ rest).toList = true :=
    List.isPrefixOf_iff_prefix.2 ⟨rest.toList, String.toList_append.symm⟩
  simp only [asked, hbegins, withoutPrefix_append, Bool.true_and]

theorem mem_select {e : Entry} :
    e ∈ db.select test ↔ e ∈ db.entries ++ db.autoInit ∧ test e.identifier = true :=
  List.mem_filter

/-- Two tests select the same just when they agree on all that is stored. -/
theorem select_eq_iff : db.select test = db.select test' ↔
    ∀ e ∈ db.entries ++ db.autoInit, test e.identifier = test' e.identifier := by
  refine ⟨fun h e he => ?_, List.filter_congr⟩
  have hiff : e ∈ db.select test ↔ e ∈ db.select test' := by rw [h]
  rw [mem_select, mem_select, and_iff_right he, and_iff_right he] at hiff
  exact Bool.eq_iff_iff.2 hiff

/-- A query selects what matches the pattern without the prefix. -/
theorem find_eq_select (db : Database) {symbolPrefix pattern rest : String}
    (hpattern : withoutPrefix symbolPrefix pattern = rest) (h : Glob.parse rest = .ok tokens) :
    db.find symbolPrefix pattern = .ok (db.select (Glob.accepts rest)) := by
  rw [Glob.accepts_eq h]
  simp only [find, hpattern, h]
  rfl

theorem find_of_error (db : Database) {symbolPrefix pattern rest : String} {error : Glob.Error}
    (hpattern : withoutPrefix symbolPrefix pattern = rest) (h : Glob.parse rest = .error error) :
    db.find symbolPrefix pattern = .error { pattern := rest, error } := by
  simp only [find, hpattern, h]

/-- A word selects what has it for its identifier. -/
theorem find_of_word (db : Database) {symbolPrefix pattern word : String}
    (hpattern : withoutPrefix symbolPrefix pattern = word)
    (hword : ∀ c ∈ word.toList, isNameChar c = true) :
    db.find symbolPrefix pattern = .ok (db.select (· == word)) := by
  rw [db.find_eq_select hpattern (Glob.parse_word hword)]
  exact congrArg Except.ok (congrArg db.select (funext fun _ => Glob.accepts_word hword))

end Database

/-! ## Reachable databases -/

namespace IndexedDatabase

variable {db : IndexedDatabase}

/-- A pattern that does not begin with the prefix finds what is asked for, and one that
does, what matches the rest.  A rest that is no pattern is refused, which a prefix that the
settings accept rules out.  What is found is what is asked for unless an identifier is stored
that matches the whole pattern alone; behind a prefix that the settings accept, such an
identifier begins with the prefix too.  An identifier as the pattern finds its own entry
just when it does not begin with the prefix, and always with the prefix in front. -/
theorem NamedReachable.finds_by_pattern (h : NamedReachable db) (hne : symbolPrefix ≠ "")
    {tokens : List Glob.Token} (hread : Glob.parse pattern = .ok tokens) :
    (¬symbolPrefix.toList <+: pattern.toList →
      db.database.find symbolPrefix pattern = .ok (db.database.asked symbolPrefix pattern)) ∧
    (∀ rest, pattern = symbolPrefix ++ rest →
      (isCName symbolPrefix = true → (∃ more, Glob.parse rest = .ok more) ∧
        ∀ identifier, Glob.accepts pattern identifier = true ↔
          ∃ tail, identifier = symbolPrefix ++ tail ∧ Glob.accepts rest tail = true) ∧
      (∀ error, Glob.parse rest = .error error →
        db.database.find symbolPrefix pattern = .error { pattern := rest, error }) ∧
      ∀ more, Glob.parse rest = .ok more →
        db.database.find symbolPrefix pattern = .ok (db.database.select (Glob.accepts rest)) ∧
        (db.database.find symbolPrefix pattern = .ok (db.database.asked symbolPrefix pattern) ↔
          ∀ e ∈ db.database.entries ++ db.database.autoInit,
            Glob.accepts pattern e.identifier = true → Glob.accepts rest e.identifier = true)) ∧
    ∀ e ∈ db.database.entries ++ db.database.autoInit,
      db.database.find symbolPrefix e.identifier =
        .ok (db.database.select (· == withoutPrefix symbolPrefix e.identifier)) ∧
      (e ∈ db.database.select (· == withoutPrefix symbolPrefix e.identifier) ↔
        ¬symbolPrefix.toList <+: e.identifier.toList) ∧
      db.database.find symbolPrefix (symbolPrefix ++ e.identifier) =
        .ok (db.database.select (· == e.identifier)) := by
  refine ⟨fun hplain => ?_, fun rest hpattern => ⟨fun hname => ?_, fun error herror => ?_,
    fun more hmore => ?_⟩, fun e he => ?_⟩
  · rw [db.database.find_eq_select (withoutPrefix_of_not_begins hplain) hread,
      Database.asked_of_not_begins hplain]
  · subst hpattern
    exact Glob.accepts_append hne (isCName_iff.1 hname).2 hread
  · subst hpattern
    exact db.database.find_of_error (withoutPrefix_append symbolPrefix rest) herror
  · subst hpattern
    have hfind := db.database.find_eq_select (withoutPrefix_append symbolPrefix rest) hmore
    refine ⟨hfind, ?_⟩
    rw [hfind, Database.asked_append, Except.ok.injEq, Database.select_eq_iff]
    refine forall₂_congr fun e _ => ?_
    rw [eq_comm, Bool.or_eq_right_iff_imp]
  · have hword : ∀ c ∈ e.identifier.toList, isNameChar c = true := fun c =>
      isNameChar_of_mem_identifier (h.named e he)
    refine ⟨db.database.find_of_word rfl fun c hc => hword c (mem_of_mem_withoutPrefix hc), ?_,
      db.database.find_of_word (withoutPrefix_append symbolPrefix e.identifier) hword⟩
    rw [Database.mem_select, and_iff_right he, beq_iff_eq, eq_comm,
      withoutPrefix_eq_self_iff hne]

/-! ### An identifier that begins with the prefix -/

/-- A use of an identifier that begins with the prefix. -/
def prefixedUse : Record where
  identifier := "SPGM_x"
  kind := .reference
  value := { fallback := some "Prefixed" }
  location := ⟨"a.c", 1, 1⟩

/-- A member of the list for automatic initialisation with the rest for its identifier. -/
def plainMember : Record where
  identifier := "x"
  kind := .autoInit
  value := { fallback := some "Plain" }
  location := ⟨"a.c", 2, 1⟩

/-- The database of both. -/
def prefixed : IndexedDatabase :=
  ofDatabase { entries := [.create "SPGM_x" prefixedUse.candidate]
               autoInit := [.create "x" plainMember.candidate] }

theorem namedReachable_prefixed : NamedReachable prefixed :=
  .apply (r := plainMember)
    (.apply (r := prefixedUse) .empty (by decide) (apply_ofDatabase {} prefixedUse)) (by decide)
    (apply_ofDatabase { entries := [.create "SPGM_x" prefixedUse.candidate] } plainMember)

theorem finds_by_pattern_prefixed :
    (prefixed.database.find "SPGM_" "SPGM_?").map identifiers = .ok ["x"] ∧
    prefixed.database.find "SPGM_" "SPGM_?" ≠ .ok (prefixed.database.asked "SPGM_" "SPGM_?") ∧
    (prefixed.database.find "SPGM_" "SPGM_SPGM_x").map identifiers = .ok ["SPGM_x"] := by
  have hread : Glob.parse "SPGM_?" = .ok ("SPGM_".toList.map .char ++ [.anyChar]) := by
    decide +kernel
  have hrest : Glob.parse "?" = .ok [.anyChar] := by decide +kernel
  obtain ⟨-, hbegins, hnames⟩ :=
    namedReachable_prefixed.finds_by_pattern (show "SPGM_" ≠ "" by decide) hread
  obtain ⟨-, -, hfinds⟩ := hbegins "?" (by decide)
  obtain ⟨hfind, hasked⟩ := hfinds _ hrest
  refine ⟨?_, fun heq => ?_, ?_⟩
  · rw [hfind]
    decide +kernel
  · -- The identifier that begins with the prefix matches the whole pattern and not the rest.
    have hboth := hasked.1 heq _ List.mem_cons_self (by decide +kernel)
    exact absurd hboth (by decide +kernel)
  · have hown := (hnames _ List.mem_cons_self).2.2
    exact (congrArg _ hown).trans (by decide +kernel)

/-- The first entry has the pattern for its identifier, and is asked for but not found. -/
theorem find_misses_prefixed :
    NamedReachable prefixed ∧ (∃ tokens, Glob.parse "SPGM_x" = .ok tokens) ∧
    identifiers (prefixed.database.entries ++ prefixed.database.autoInit) = ["SPGM_x", "x"] ∧
    identifiers (prefixed.database.asked "SPGM_" "SPGM_x") = ["SPGM_x", "x"] ∧
    (prefixed.database.find "SPGM_" "SPGM_x").map identifiers = .ok ["x"] := by
  have hword : isIdentifier "SPGM_x" = true := by decide
  refine ⟨namedReachable_prefixed,
    ⟨_, Glob.parse_word fun c => isNameChar_of_mem_identifier hword⟩, rfl, ?_, ?_⟩
  · decide +kernel
  · decide +kernel

end IndexedDatabase

end FlashStrings
