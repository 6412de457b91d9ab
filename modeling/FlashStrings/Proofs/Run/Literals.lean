import FlashStrings.Proofs.Emit.Tables
import FlashStrings.Proofs.Merge.Held
import FlashStrings.Proofs.Run.References
import FlashStrings.Proofs.Source.Literals

/-!
# Literals from the sources to the generated files

A literal without escapes goes through the decoding of its source, the scan, the merge
and the generated source.  `Project.HasLiteral` says that it stands alone as a value of an
invocation that a run accepts.  Then the entry of the invocation holds its text, the
generated source defines this text, and the initialiser has the bytes of the text
(`Project.writes_literal`).

The text has the bytes of the literal just when these are well-formed UTF-8.  Malformed
bytes are replaced when a source is decoded, so literals of different bytes may be one
text (`Project.writes_literal_latin`).
-/

namespace FlashStrings

namespace Project

variable {p : Project} {t : FileTree} {earlier : Database} {hashed : Bytes → Prop} {r : Record}
  {e : Entry} {key : Option String} {text : String} {literal : Bytes} {o : Outcome}

/-! ## Records -/

/-- The records of all sources and of the settings. -/
def records (p : Project) (t : FileTree) : List Record :=
  scanRecords ((p.sources.files t).map (p.scanFile t ∅)) ++ p.configRecords

/-- A run that can trust the records of its database merges those of all sources. -/
theorem scanRecords_scans (hfree : CollisionFree hashed) (hhashed : ∀ m, p.Hashes t m → hashed m)
    (htrust : p.CanTrust hashed (p.known earlier)) :
    scanRecords (p.scans t earlier) ++ p.configRecords = p.records t := by
  have hfresh : ∀ scanned, sourceRecords (scanned.map FileScan.fresh) = sourceRecords scanned :=
    fun scanned => by cases scanned <;> rfl
  rw [records, scanRecords, scanRecords, scans, List.flatMap_map, List.flatMap_map]
  congr 1
  refine List.flatMap_congr fun file hfile => ?_
  rw [← fresh_scanFile hfree hhashed htrust hfile, hfresh]

/-! ## Entries of the outcome -/

/-- Display texts take no text away. -/
theorem below_finish (p : Project) (e : Entry) : e.value.Below (p.finish e).value := by
  rw [finish]
  split
  · rcases e.filled_cases with hsame | ⟨location, hnone, -, hfilled⟩
    · rw [hsame]
      exact .refl e.value
    · rw [hfilled]
      intro key text ht
      cases key with
      | none =>
        rw [Entry.at?_value, Entry.at?, hnone] at ht
        cases ht
      | some code => exact ht
  · exact .refl e.value

/-- What was gathered for a record is held by its entry in the outcome. -/
theorem holds_runAfter (h : (p.gather (p.scans t earlier)).1.Holds r) :
    (p.runAfter t earlier).database.Holds r := by
  obtain ⟨e, he, hbelow⟩ := h
  by_cases hk : r.kind = .autoInit
  · refine ⟨e, ?_, hbelow⟩
    rw [Database.entryFor?, Database.entriesFor, if_pos hk] at he ⊢
    rwa [autoInit_runAfter]
  · refine ⟨p.finish e, ?_, hbelow.trans (p.below_finish e)⟩
    rw [Database.entryFor?, Database.entriesFor, if_neg hk] at he ⊢
    rw [← identifier_of_entryOf? he, ← (p.samePlaces_finish e).identifier]
    exact (entryOf?_eq_some_iff_mem (nodup_identifiers_runAfter p t earlier)).2
      (finish_mem_database (mem_of_entryOf? he))

/-- Where no conflict is at the place of a record, the outcome holds it. -/
theorem holds_of_no_conflict (hr : r ∈ scanRecords (p.scans t earlier) ++ p.configRecords)
    (htell : HashesTell (sharing r (scanRecords (p.scans t earlier) ++ p.configRecords)))
    (hnone : ∀ c, .conflict c ∈ (p.runAfter t earlier).issues →
      c.incoming.location ≠ r.location) : (p.runAfter t earlier).database.Holds r := by
  obtain ⟨files, hdb, -⟩ := p.gather_eq (p.scans t earlier)
  have hmerged : (p.mergeRecords (p.scans t earlier)).1.Holds r := by
    refine Database.holds_applyAll (Database.sealed_empty _ _) (List.Subset.refl _) hr htell
      fun c hc => hnone c ((perm_issues p t earlier).mem_iff.2 ?_)
    exact List.mem_append_left _ (List.mem_append_left _ (conflict_mem_gather hc))
  refine holds_runAfter ?_
  rw [hdb]
  exact hmerged.withFiles files

/-! ## Literals -/

/-- The generated source defines a text of the entry of a record, by the symbol that the
entry or its table has for it. -/
def Writes (p : Project) (o : Outcome) (r : Record) (e : Entry) (text : String) : Prop :=
  if r.kind = .autoInit then
    ∃ i, o.database.autoInit[i]? = some e ∧
      .text false (e.symbolOf (memberRow i e).text (memberRow i e).text text) text ∈
        sourceDeclarations p.config.symbolPrefix (p.emitted o) o.database.autoInit
  else
    ∃ shared, .text shared (e.symbolOf ("spgm_value_" ++ e.identifier) (p.symbol e.identifier)
        text) text ∈
      sourceDeclarations p.config.symbolPrefix (p.emitted o) o.database.autoInit

/-- Every text of an entry is written, if the entry is not left out. -/
theorem writes_of_at? {key : Option String} (he : o.database.entryFor? r = some e)
    (h : e.value.at? key = some text) (hemits : r.kind ≠ .autoInit → p.emits e = true) :
    p.Writes o r e text := by
  have hmem := mem_of_entryOf? he
  rw [Writes]
  split
  · next hk =>
    rw [Database.entriesFor, if_pos hk] at hmem
    obtain ⟨i, hi⟩ := List.mem_iff_getElem?.1 hmem
    exact ⟨i, hi, text_mem_of_getElem?_members hi h _⟩
  · next hk =>
    rw [Database.entriesFor, if_neg hk] at hmem
    exact text_mem_of_mem_entries (List.mem_filter.2 ⟨hmem, hemits hk⟩) h _

/-- A source of the project holds a literal without escapes that stands alone as a value
of an invocation, and the run reports no conflict at this source. -/
structure HasLiteral (p : Project) (t : FileTree) (o : Outcome) (r : Record)
    (key : Option String) (literal : Bytes) : Prop where
  isSource : r.location.file ∈ p.sources.files t
  holdsLiteral : ∃ content, t.read? (p.root.join r.location.file) = some content ∧
    Scan.HoldsLiteral ⟨r.location.file, p.defines⟩ content r key literal
  accepted : ∀ c, .conflict c ∈ o.issues → c.incoming.location.file ≠ r.location.file

/-- The record of the literal is one of the project. -/
theorem HasLiteral.record_mem (h : p.HasLiteral t o r key literal) : r ∈ p.records t := by
  obtain ⟨content, hread, hliteral⟩ := h.holdsLiteral
  refine List.mem_append_left _ (List.mem_flatMap.2 ⟨_, List.mem_map.2 ⟨_, h.isSource, rfl⟩, ?_⟩)
  rw [scanFile_of_unknown hread rfl]
  exact List.mem_filterMap.2 ⟨_, hliteral.record_mem.1, rfl⟩

/-- The record holds the text of the literal. -/
theorem HasLiteral.holds (h : p.HasLiteral t o r key literal) :
    r.value.Holds key (Utf8.decodeLossy literal) := by
  obtain ⟨content, -, hliteral⟩ := h.holdsLiteral
  exact hliteral.holds

/-- The characters of its text stand for themselves. -/
theorem HasLiteral.isPlain (h : p.HasLiteral t o r key literal) {c : Char}
    (hc : c ∈ (Utf8.decodeLossy literal).toList) : IsPlain c := by
  obtain ⟨content, -, hliteral⟩ := h.holdsLiteral
  cases hliteral with
  | intro _ hmarks => exact isPlain_of_mem_decodeLossy hmarks hc

/-- The outcome holds the text of the literal. -/
theorem HasLiteral.holds_database (h : p.HasLiteral t (p.runAfter t earlier) r key literal)
    (hrecords : scanRecords (p.scans t earlier) ++ p.configRecords = p.records t)
    (htell : HashesTell (sharing r (p.records t))) :
    ∃ e, (p.runAfter t earlier).database.entryFor? r = some e ∧
      e.value.Holds key (Utf8.decodeLossy literal) := by
  rw [← hrecords] at htell
  obtain ⟨e, he, hbelow⟩ := holds_of_no_conflict (hrecords ▸ h.record_mem) htell
    fun c hc heq => h.accepted c hc (congrArg Location.file heq)
  exact ⟨e, he, h.holds.mono hbelow⟩

/-- The entry of an accepted literal holds its text, the generated source defines it, and
the initialiser has the bytes of the text.  These are the bytes of the literal just when
they are well-formed.  So well-formed literals that are stored as one text, or that are
given to one key of an entry, have the same bytes. -/
theorem writes_literal {more : List String} (hdefines : p.defines = p.config.stringDefines more)
    (hfree : CollisionFree hashed) (hhashed : ∀ m, p.Hashes t m → hashed m)
    (hsaved : p.HasSavedDatabase hashed t) (hrun : p.run t = .ok o)
    (hliteral : p.HasLiteral t o r key literal)
    (hnul : ∀ r' ∈ sharing r (p.records t), r'.value.NulFree)
    (hcontents : CollisionFree (ContentMessage (sharing r (p.records t)))) :
    o.generated = generateFiles p.emitSettings (p.emitted o) o.database.autoInit ∧
      (∃ e, o.database.entryFor? r = some e ∧
        e.value.Holds key (Utf8.decodeLossy literal) ∧
        ((r.kind ≠ .autoInit → p.emits e = true) →
          p.Writes o r e (Utf8.decodeLossy literal))) ∧
      CLiteral.value? (initializerOf (Utf8.decodeLossy literal)).toList =
        some (Utf8.encode (Utf8.decodeLossy literal)) ∧
      (Utf8.encode (Utf8.decodeLossy literal) = literal ↔ (Utf8.decode? literal).isSome) ∧
      ∀ r' key' literal', p.HasLiteral t o r' key' literal' →
        Utf8.decodeLossy literal' = Utf8.decodeLossy literal ∨
          r'.Shares r ∧ key' = key ∧ key ≠ some wildcardLocale →
        (Utf8.decode? literal).isSome → (Utf8.decode? literal').isSome → literal' = literal := by
  rw [run] at hrun
  obtain ⟨earlier, hload, rfl⟩ := map_eq_ok hrun
  have hp : p.Regular hashed := ⟨⟨more, hdefines⟩, hhashed _ .settings⟩
  have hrecords := scanRecords_scans hfree hhashed (hsaved.canTrust hfree hp hload)
  have htell : HashesTell (sharing r (p.records t)) := hashesTell_of_collisionFree hnul hcontents
  obtain ⟨e, he, hholds⟩ := hliteral.holds_database hrecords htell
  refine ⟨rfl, ⟨e, he, hholds, fun hemits => ?_⟩,
    value?_initializerOf_of_plain fun c hc => hliteral.isPlain hc, Utf8.encode_decodeLossy_iff,
    fun r' key' literal' hliteral' hsame hvalid hvalid' => ?_⟩
  · exact hholds.elim (fun hat => writes_of_at? he hat hemits)
      fun hat => writes_of_at? he hat.2 hemits
  · have htext : Utf8.decodeLossy literal' = Utf8.decodeLossy literal := by
      rcases hsame with htext | ⟨hshares, rfl, hkey⟩
      · exact htext
      · -- the entry has at most one text under the key
        obtain ⟨e', he', hholds'⟩ := hliteral'.holds_database hrecords
          (by rwa [hshares.sharing_eq])
        rw [Database.entryFor?_of_shares hshares, he] at he'
        obtain rfl := Option.some.inj he'
        have hat := hholds.resolve_right fun h => hkey h.1
        have hat' := hholds'.resolve_right fun h => hkey h.1
        exact Option.some.inj (hat'.symm.trans hat)
    rw [← Utf8.encode_decodeLossy_iff.2 hvalid', htext, Utf8.encode_decodeLossy_iff.2 hvalid]

theorem writes_literal_sample :
    ∃ e, (sample.runAfter sampleTree {}).database.entryFor? sampleUse = some e ∧
      sample.Writes (sample.runAfter sampleTree {}) sampleUse e
        (Utf8.decodeLossy [0x48, 0x69]) := by
  have hread : sampleTree.read? sample.databasePath = none := by decide +kernel
  have hsaved : sample.HasSavedDatabase (sampleHashed sampleSource) sampleTree := by
    intro content hcontent
    cases hread.symm.trans hcontent
  have hrun : sample.run sampleTree = .ok (sample.runAfter sampleTree {}) :=
    run_of_has (by decide +kernel)
  have houtcome : ((sample.runAfter sampleTree {}).issues,
      ((sample.runAfter sampleTree {}).database.entryFor? sampleUse).map sample.emits) =
        ([], some true) := by decide +kernel
  obtain ⟨hissues, hemits⟩ := Prod.mk.inj houtcome
  have hliteral : sample.HasLiteral sampleTree (sample.runAfter sampleTree {}) sampleUse none
      [0x48, 0x69] := by
    refine ⟨by decide +kernel, ⟨Scan.useOf [0x48, 0x69], by decide +kernel,
      Scan.holdsLiteral_useOf (by simp [literalMarks]) (by decide +kernel)⟩, fun c hc => ?_⟩
    rw [hissues] at hc
    cases hc
  have hrecords : sharing sampleUse (sample.records sampleTree) = [sampleUse] := by decide +kernel
  have hnul : sampleUse.value.NulFree :=
    ⟨fun text ht => Option.some.inj ht ▸ by decide, fun e he => by cases he⟩
  have hmade : ∀ m, ContentMessage [sampleUse] m → ContentMessage Database.sampleRecords m := by
    rintro m ⟨v, hv, rfl⟩
    refine ⟨v, fun key text ht => ?_, rfl⟩
    obtain ⟨r, hr, hrt⟩ := hv key text ht
    obtain rfl := List.mem_singleton.1 hr
    exact ⟨Database.sampleRecords[1], by decide, hrt⟩
  have hcontents : CollisionFree (ContentMessage [sampleUse]) := fun m m' hm hm' =>
    Database.collisionFree_sampleRecords m m' (hmade m hm) (hmade m' hm')
  obtain ⟨-, ⟨e, he, -, hwrites⟩, -⟩ := writes_literal
    (show sample.defines = sample.config.stringDefines [] from rfl) collisionFree_sampleSource
    (sampleHashed_of_hashes rfl rfl (by decide +kernel) (by decide +kernel)) hsaved hrun hliteral
    (by rwa [hrecords, List.forall_mem_singleton]) (by rwa [hrecords])
  refine ⟨e, he, hwrites fun _ => ?_⟩
  rw [he] at hemits
  exact Option.some.inj hemits

/-! ### Two literals, or one text -/

/-- Two sources that give `Hi` an `é` and an `è` in Latin-1. -/
def latinTree : FileTree where
  nodes := .ofList [(["p"], .directory), (["p", ".spgm"], .directory), (["p", "src"], .directory),
    (["p", "src", "a.c"], .file (Scan.useOf [0xE9])),
    (["p", "src", "b.c"], .file (Scan.useOf [0xE8]))]

/-- The use in one of the sources. -/
def latinUse (file : String) : Record where
  identifier := "Hi"
  kind := .reference
  value := { fallback := some "\uFFFD" }
  location := ⟨file, 1, 1⟩

/-- Two accepted literals of different bytes are one text, and the initialiser has the
bytes of neither. -/
theorem writes_literal_latin :
    ∃ o e, sample.run latinTree = .ok o ∧ o.issues = [] ∧
      sample.HasLiteral latinTree o (latinUse "src/a.c") none [0xE9] ∧
      sample.HasLiteral latinTree o (latinUse "src/b.c") none [0xE8] ∧
      o.database.entryFor? (latinUse "src/a.c") = some e ∧
      o.database.entryFor? (latinUse "src/b.c") = some e ∧
      e.value = { fallback := some "\uFFFD" } ∧
      sample.Writes o (latinUse "src/a.c") e "\uFFFD" ∧
      CLiteral.value? (initializerOf "\uFFFD").toList = some [0xEF, 0xBF, 0xBD] := by
  have hrun : sample.run latinTree = .ok (sample.runAfter latinTree {}) :=
    run_of_has (by decide +kernel)
  have houtcome : ((sample.runAfter latinTree {}).issues,
      ((sample.runAfter latinTree {}).database.entryFor? (latinUse "src/a.c")).map
        fun e => (e.value, sample.emits e)) = ([], some ({ fallback := some "\uFFFD" }, true)) := by
    decide +kernel
  obtain ⟨hissues, hentry⟩ := Prod.mk.inj houtcome
  have haccepted : ∀ file c, .conflict c ∈ (sample.runAfter latinTree {}).issues →
      c.incoming.location.file ≠ file := by
    rw [hissues]
    exact fun _ _ h => absurd h List.not_mem_nil
  obtain ⟨e, he, hvalues⟩ := Option.map_eq_some_iff.1 hentry
  obtain ⟨hvalue, hemits⟩ := Prod.mk.inj hvalues
  have hat : e.value.at? none = some "\uFFFD" := by rw [hvalue]; rfl
  have hshares : (latinUse "src/b.c").Shares (latinUse "src/a.c") := by decide
  refine ⟨_, e, hrun, hissues, ⟨by decide +kernel, ⟨_, by decide +kernel,
    Scan.holdsLiteral_useOf (by simp [literalMarks]) (by decide +kernel)⟩, haccepted _⟩,
    ⟨by decide +kernel, ⟨_, by decide +kernel,
      Scan.holdsLiteral_useOf (by simp [literalMarks]) (by decide +kernel)⟩, haccepted _⟩,
    he, (Database.entryFor?_of_shares hshares _).trans he, hvalue,
    writes_of_at? he hat fun _ => hemits, by decide +kernel⟩

end Project

end FlashStrings
