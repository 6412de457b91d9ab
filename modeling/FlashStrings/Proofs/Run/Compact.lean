import FlashStrings.Proofs.IndexedDatabase.Rejection
import FlashStrings.Proofs.IndexedDatabase.Saved
import FlashStrings.Proofs.Report.Compact
import FlashStrings.Proofs.Run.Again
import FlashStrings.Proofs.Run.Pasted
import FlashStrings.Proofs.Source.Refused

/-!
# Compact reports of runs

Every issue of a run comes from a source, from records that conflict or from a rule about
uses (`Project.mem_issues_cases`).  Those of the last two kinds show an identifier, perhaps
with a locale code, and places of records; a source that cannot be read is named.  If all
files have names of one line, such an issue stands in one line (`Issue.Plain`).

The errors in arguments remain.  They show pieces of the sources as they stand.  So the line
of such an error can be broken, but only if the invocation is spread over lines
(`Project.isSpread_of_broken`).
-/

namespace FlashStrings

/-! ## Plain issues -/

theorem unbroken_of_isIdentifier {text : String} (h : isIdentifier text = true) :
    Unbroken text :=
  unbroken_iff.2 fun hmem => absurd (isNameChar_of_mem_identifier h hmem) (by decide)

theorem unbroken_of_isLocaleCode {text : String} (h : isLocaleCode text = true) : Unbroken text :=
  unbroken_iff.2 (Argument.not_mem_of_isLocaleCode h (by decide) (by decide))

/-- The line of the issue has no break inside. -/
structure Issue.Plain (i : Issue) : Prop where
  files : ∀ file ∈ i.files, Unbroken file
  message : Unbroken i.message

/-- What an issue shows of the arguments of an invocation, one text after the other. -/
def Issue.shown : Issue → String
  | parseError e => String.join e.error.shown
  | _ => ""

/-- The record has an identifier and locale codes, and it stands in the file. -/
structure Record.StandsIn (r : Record) (file : String) : Prop where
  identifier : isIdentifier r.identifier = true
  codes : ∀ code text, r.value.at? (some code) = some text → isLocaleCode code = true
  file : r.location.file = file

/-- A record of a scan stands in the file. -/
theorem standsIn_of_mem_recordsOf_scan {settings : ScanSettings} {text : String} {r : Record}
    (h : r ∈ recordsOf (scan settings text)) : r.StandsIn settings.file := by
  obtain ⟨_, _, _, -, hread⟩ := gives_of_mem_recordsOf_scan h
  have hall := (Scan.readArguments_eq_ok hread).1
  obtain ⟨parts, -, hid, hname, -⟩ := Argument.readAll_eq_ok hall
  have hname : r.identifier = _ := hname
  have heach : r.value.Each fun _ => True := Argument.each_of_readAll (fun _ _ _ _ => trivial) hall
  refine ⟨hname ▸ hid, heach.codes, ?_⟩
  obtain ⟨σ, kind, site, args, -, -, -, -, -, hinvocation⟩ :=
    Scan.exists_site_of_mem_scan (mem_recordsOf.1 h)
  obtain ⟨r', heq, -, hlocation⟩ | ⟨e, heq, -⟩ := Scan.invocation_cases hinvocation
  · obtain rfl := Finding.record.inj heq
    rw [hlocation]
    rfl
  · cases heq

namespace Entry

variable {e : Entry} {r : Record} {i : Issue}

/-- The conflicts of a record stand in one line each. -/
theorem RefusedWith.plain {new : List Conflict} (h : e.RefusedWith r new)
    (hwithin : e.Within (Unbroken ·.file)) (he : e.Consistent) {file : String}
    (hr : r.StandsIn file) (hfile : Unbroken file) : ∀ c ∈ new, (Issue.conflict c).Plain := by
  have hidentifier := unbroken_of_isIdentifier hr.identifier
  have hlocation : Unbroken r.location.file := hr.file ▸ hfile
  cases h with
  | keys _ hall _ =>
    intro c hc
    obtain ⟨hname, hexisting, hincoming, hplace, -⟩ := (hall c).1 hc
    refine ⟨List.forall_mem_cons.2 ⟨?_, List.forall_mem_singleton.2 ?_⟩, ?_⟩
    · show Unbroken c.incoming.location.file
      rwa [hplace]
    · exact hwithin.of_at? he hexisting
    · rw [Issue.message]
      split
      · rwa [hname]
      · next code hcode =>
        rw [hcode] at hincoming
        have hcode := unbroken_of_isLocaleCode (hr.codes code _ hincoming)
        exact (((hname ▸ hidentifier).append (by decide)).append hcode).append (by decide)
  | content _ =>
    refine List.forall_mem_singleton.2 ⟨?_, hidentifier⟩
    refine List.forall_mem_cons.2 ⟨hlocation, List.forall_mem_singleton.2 ?_⟩
    show Unbroken (e.firstLocation?.getD r.location).file
    cases hfirst : e.firstLocation? with
    | none => exact hlocation
    | some l =>
      rcases Option.or_eq_some_iff.1 hfirst with hhead | ⟨-, hhead⟩
      · exact hwithin.definitions l (List.mem_of_mem_head? hhead)
      · exact hwithin.references l (List.mem_of_mem_head? hhead)

/-- What the rules about uses find stands in one line. -/
theorem Within.plain (h : e.Within (Unbroken ·.file)) (hidentifier : Unbroken e.identifier)
    (hi : e.unresolved? = some i ∨ e.unused? = some i) : i.Plain := by
  have hfiltered : ∀ {places : List Location} {location : Location} {label : String},
      (∀ l ∈ places, Unbroken l.file) → places.head? = some location →
      ∀ file ∈ location.file :: ((places.filter (· ≠ location)).map
        (⟨label, ·⟩ : Location → RelatedSite)).map (·.location.file), Unbroken file := by
    intro places location label hplaces hhead
    refine List.forall_mem_cons.2 ⟨hplaces _ (List.mem_of_mem_head? hhead), fun file hfile => ?_⟩
    rw [List.map_map] at hfile
    obtain ⟨l, hl, rfl⟩ := List.mem_map.1 hfile
    exact hplaces l (List.mem_of_mem_filter hl)
  rcases hi with hi | hi
  · rw [unresolved?] at hi
    split at hi
    · obtain ⟨location, hhead, rfl⟩ := Option.map_eq_some_iff.1 hi
      exact ⟨hfiltered h.references hhead, hidentifier⟩
    · cases hi
  · rw [unused?] at hi
    split at hi
    · cases hi
    · obtain ⟨location, hhead, rfl⟩ := Option.map_eq_some_iff.1 hi
      exact ⟨hfiltered h.definitions hhead, hidentifier⟩

end Entry

/-! ## Databases -/

namespace Database

variable {db db' : Database} {r : Record} {file : String}

/-- What a report says about the entries stands in one line. -/
structure Plain (db : Database) : Prop where
  within : db.Within (Unbroken ·.file)
  consistent : db.Consistent
  identifiers : ∀ e ∈ db.entries, Unbroken e.identifier

theorem Plain.apply (h : db.Plain) (hr : r.StandsIn file) (hfile : Unbroken file)
    (ha : db.apply r = .ok db') : db'.Plain := by
  refine ⟨h.within.apply (hr.file ▸ hfile) ha, h.consistent.apply ha, ?_⟩
  by_cases hk : r.kind = .autoInit
  · rw [(mergeOrAppend_of_apply_autoInit hk ha).2]
    exact h.identifiers
  · refine forall_of_mergeOrAppend ?_ (fun e e' he hm => ?_) (mergeOrAppend_of_apply hk ha)
      h.identifiers
    · rw [Entry.identifier_create]
      exact unbroken_of_isIdentifier hr.identifier
    · rwa [Entry.identifier_of_merge hm]

theorem Plain.conflict (h : db.Plain) (hr : r.StandsIn file) (hfile : Unbroken file)
    {new : List Conflict} (ha : db.apply r = .error new) : ∀ c ∈ new, (Issue.conflict c).Plain := by
  obtain ⟨e, he, -, hrefused⟩ := refusedWith_of_apply ha
  cases hk : r.kind with
  | autoInit =>
    rw [hk] at he
    exact hrefused.plain (h.within.members e he) (h.consistent.members e he).toConsistent hr hfile
  | definition | reference =>
    rw [hk] at he
    exact hrefused.plain (h.within.entries e he) (h.consistent.entries e he).toConsistent hr hfile

end Database

namespace Project

variable {p : Project} {t : FileTree} {earlier : Database} {i : Issue}

/-- Records of files with names of one line lead to plain entries and plain conflicts. -/
theorem plain_mergeRecords {scans : List (Except Issue FileScan)}
    (h : ∀ r ∈ scanRecords scans ++ p.configRecords, ∃ file, r.StandsIn file ∧ Unbroken file) :
    (p.mergeRecords scans).1.Plain ∧
      ∀ c ∈ (p.mergeRecords scans).2, (Issue.conflict c).Plain := by
  have hempty : Database.Plain { fingerprint := p.fingerprint } :=
    ⟨⟨nofun, nofun, nofun⟩, ⟨.nil, .nil, nofun, nofun⟩, nofun⟩
  have hstep : ∀ r ∈ scanRecords scans ++ p.configRecords, ∀ db db' : Database, db.Plain →
      db.apply r = .ok db' → db'.Plain := by
    intro r hr db db' hdb ha
    obtain ⟨file, hstands, hfile⟩ := h r hr
    exact hdb.apply hstands hfile ha
  refine ⟨Database.applyAll_induction hempty hstep, ?_⟩
  refine Database.forall_conflicts_applyAll hempty hstep fun r hr db new hdb ha => ?_
  obtain ⟨file, hstands, hfile⟩ := h r hr
  exact hdb.conflict hstands hfile ha

/-! ## Records -/

/-- The records of a file stand in it. -/
def KeptStandsIn : FileRecords.Property := fun _ file f => ∀ r ∈ f.records, r.StandsIn file

theorem keptStandsIn_of_scanFile {file : String} {s : FileScan}
    (h : p.scanFile t ∅ file = .ok s) : KeptStandsIn p s.file s.records := by
  intro r hr
  obtain ⟨rfl, content, -, hmem⟩ := exists_of_mem_records h hr
  exact standsIn_of_mem_recordsOf_scan hmem

/-- The records of the sources stand in them, also those that are not scanned again. -/
theorem exists_standsIn_of_mem_scanRecords {hashed : Bytes → Prop} {r : Record}
    (hsaved : p.HasSavedDatabase hashed t) (hload : Database.load t p.databasePath = .ok earlier)
    (h : r ∈ scanRecords (p.scans t earlier)) : ∃ file ∈ p.sources.files t, r.StandsIn file := by
  obtain ⟨s, hs, hr⟩ := mem_scanRecords_iff.1 h
  have hkept : KeptStandsIn p s.file s.records :=
    hsaved.of_mem_scans (fun _ _ _ _ => keptStandsIn_of_scanFile) (fun _ _ _ _ hf => hf) hload hs
  obtain ⟨file, hfile, hscan⟩ := List.mem_map.1 hs
  exact ⟨file, hfile, (hash_of_scanFile hscan).1 ▸ hkept r hr⟩

theorem standsIn_of_mem_configRecords {r : Record} (haccepts : p.config.AcceptsTexts)
    (h : r ∈ p.configRecords) : r.StandsIn p.configFile := by
  have hwritable := (sound_of_mem_configRecords haccepts h).writable
  obtain ⟨_, -, rfl⟩ := List.mem_map.1 h
  exact ⟨hwritable.isIdentifier, hwritable.each.codes, rfl⟩

/-! ## Issues -/

/-- An issue comes from a source, from a conflict or from a rule about uses. -/
theorem mem_issues_cases (h : i ∈ (p.runAfter t earlier).issues) :
    (∃ scanned ∈ p.scans t earlier, i ∈ sourceIssues scanned) ∨
      (∃ c ∈ (p.mergeRecords (p.scans t earlier)).2, i = .conflict c) ∨
      ∃ e ∈ (p.runAfter t earlier).database.entries,
        e.unresolved? = some i ∨ e.unused? = some i := by
  obtain ⟨-, -, hissues⟩ := p.gather_eq (p.scans t earlier)
  have hmem := (perm_issues p t earlier).mem_iff.1 h
  rw [List.mem_append, List.mem_append, hissues, Database.unresolvedIssues, Database.unusedIssues,
    List.mem_filterMap, List.mem_filterMap] at hmem
  rcases hmem with ((hsource | hconflict) | ⟨e, he, hi⟩) | ⟨e, he, hi⟩
  · exact .inl hsource
  · exact .inr (.inl hconflict)
  · exact .inr (.inr ⟨e, he, .inl hi⟩)
  · exact .inr (.inr ⟨e, he, .inr hi⟩)

/-- The error is about an invocation in one of the sources that is closed and spread over
lines. -/
def IsSpread (p : Project) (t : FileTree) (e : ParseError) : Prop :=
  ∃ file ∈ p.sources.files t, ∃ content, t.read? (p.root.join file) = some content ∧
    Scan.IsSpread ⟨file, p.defines⟩ (Utf8.decodeLossy content) e

section

variable {hashed : Bytes → Prop} (haccepts : p.config.AcceptsTexts)
  (hsaved : p.HasSavedDatabase hashed t) (hload : Database.load t p.databasePath = .ok earlier)
  (hfiles : ∀ file ∈ p.configFile :: p.sources.files t, Unbroken file)

include haccepts hsaved hload hfiles

/-- An issue is plain, or it is an error in the arguments of an invocation in a source. -/
theorem plain_or_parseError (h : i ∈ (p.runAfter t earlier).issues) :
    i.Plain ∨ ∃ e, i = .parseError e ∧ ∃ file ∈ p.sources.files t, ∃ content,
      t.read? (p.root.join file) = some content ∧
        e ∈ errorsOf (scan ⟨file, p.defines⟩ (Utf8.decodeLossy content)) := by
  obtain ⟨hconfig, hsources⟩ := List.forall_mem_cons.1 hfiles
  have hrecords : ∀ r ∈ scanRecords (p.scans t earlier) ++ p.configRecords,
      ∃ file, r.StandsIn file ∧ Unbroken file := by
    intro r hr
    rcases List.mem_append.1 hr with hr | hr
    · obtain ⟨file, hfile, hstands⟩ := exists_standsIn_of_mem_scanRecords hsaved hload hr
      exact ⟨file, hstands, hsources file hfile⟩
    · exact ⟨p.configFile, standsIn_of_mem_configRecords haccepts hr, hconfig⟩
  obtain ⟨hmerged, hconflicts⟩ := plain_mergeRecords hrecords
  rcases mem_issues_cases h with ⟨scanned, hscanned, hi⟩ | ⟨c, hc, rfl⟩ | ⟨e, he, hi⟩
  · obtain ⟨file, hfile, hscan⟩ := List.mem_map.1 hscanned
    cases scanned with
    | error j =>
      obtain rfl := List.mem_singleton.1 hi
      obtain rfl := eq_ioError_of_scanFile hscan
      have hmessage : Unbroken "cannot read file" := by decide
      exact .inl ⟨List.forall_mem_singleton.2 (hsources file hfile), hmessage⟩
    | ok s =>
      obtain ⟨e, he, rfl⟩ := List.mem_map.1 hi
      exact .inr ⟨e, rfl, file, hfile, exists_of_mem_errors hscan he⟩
  · exact .inl (hconflicts c hc)
  · obtain ⟨e₀, he₀, rfl⟩ := entry_of_mem_database he
    obtain ⟨files, hgather, -⟩ := p.gather_eq (p.scans t earlier)
    rw [hgather] at he₀
    have hsame := p.samePlaces_finish e₀
    refine .inl (((hmerged.within.entries e₀ he₀).of_samePlaces hsame).plain ?_ hi)
    rw [hsame.identifier]
    exact hmerged.identifiers e₀ he₀

theorem lineBreaks_of_mem_issues (h : i ∈ (p.runAfter t earlier).issues) :
    (∀ file ∈ i.files, Unbroken file) ∧ lineBreaks i.message = lineBreaks i.shown := by
  rcases plain_or_parseError haccepts hsaved hload hfiles h with
    hplain | ⟨e, rfl, file, hfile, content, -, he⟩
  · refine ⟨hplain.files, ?_⟩
    cases i with
    | parseError e => exact e.error.lineBreaks_message
    | _ => exact hplain.message
  · obtain ⟨site, args, hrefuses⟩ := Scan.exists_refuses he
    refine ⟨List.forall_mem_singleton.2 ?_, e.error.lineBreaks_message⟩
    show Unbroken e.location.file
    rw [hrefuses.location_eq]
    exact hfiles file (List.mem_cons_of_mem _ hfile)

/-- A line that is broken belongs to an error about an invocation that is spread over lines. -/
theorem isSpread_of_broken {more : List String} (hdefines : p.defines = p.config.stringDefines more)
    (h : i ∈ (p.runAfter t earlier).issues) (hbroken : ¬Unbroken (Report.compactLine i)) :
    ∃ e, i = .parseError e ∧ (∃ text ∈ e.error.shown, ¬Unbroken text) ∧ p.IsSpread t e := by
  obtain ⟨hnames, hmessage⟩ := lineBreaks_of_mem_issues haccepts hsaved hload hfiles h
  rw [Unbroken, Report.lineBreaks_compactLine hnames] at hbroken
  rcases plain_or_parseError haccepts hsaved hload hfiles h with
    hplain | ⟨e, rfl, file, hfile, content, hread, he⟩
  · exact absurd hplain.message hbroken
  have hshown : ¬∀ text ∈ e.error.shown, Unbroken text := fun hnone =>
    hbroken (hmessage.trans (unbroken_join_iff.2 hnone))
  simp only [not_forall] at hshown
  obtain ⟨text, htext, hbreak⟩ := hshown
  have hdefined : p.defines.Free '\n' := fun name content hcontent => by
    rw [hdefines] at hcontent
    exact (readable_stringDefines _ _ (SortedMap.mem_of_find?_eq_some hcontent)).2
  obtain ⟨site, args, hrefuses⟩ := Scan.exists_refuses he
  refine ⟨e, rfl, ⟨text, htext, hbreak⟩, file, hfile, content, hread, ?_⟩
  exact hrefuses.isSpread hdefined htext (Decidable.not_not.1 (mt unbroken_iff.2 hbreak))

end

/-- The compact report of a run has a line for each issue, in the order of reports.  Each line
ends with a line break.  There are no others but those in the texts that errors in arguments
show, each about an invocation that is spread over lines; so the lines are as many as the
issues just when no issue shows such a text. -/
theorem compact_of_run {hashed : Bytes → Prop} {more : List String} {o : Outcome}
    (haccepts : p.config.AcceptsTexts) (hdefines : p.defines = p.config.stringDefines more)
    (hfiles : ∀ file ∈ p.configFile :: p.sources.files t, Unbroken file)
    (hsaved : p.HasSavedDatabase hashed t) (hrun : p.run t = .ok o) :
    Report.compact o.issues = unlines (o.issues.map Report.compactLine) ∧
      o.issues.Pairwise (·.le ·) ∧
      lineBreaks (Report.compact o.issues) =
        o.issues.length + lineBreaks (String.join (o.issues.map Issue.shown)) ∧
      (lineBreaks (Report.compact o.issues) = o.issues.length ↔
        ∀ i ∈ o.issues, Unbroken (Report.compactLine i)) ∧
      ∀ i ∈ o.issues, ¬Unbroken (Report.compactLine i) →
        ∃ e, i = .parseError e ∧ (∃ text ∈ e.error.shown, ¬Unbroken text) ∧ p.IsSpread t e := by
  rw [run] at hrun
  obtain ⟨earlier, hload, rfl⟩ := map_eq_ok hrun
  have hbreaks := fun i (hi : i ∈ (p.runAfter t earlier).issues) =>
    lineBreaks_of_mem_issues haccepts hsaved hload hfiles hi
  have hsorted : Issue.sort (p.runAfter t earlier).issues = (p.runAfter t earlier).issues :=
    Issue.sort_sort _
  have hcount : lineBreaks (Report.compact (p.runAfter t earlier).issues) =
      (p.runAfter t earlier).issues.length +
        lineBreaks (String.join ((p.runAfter t earlier).issues.map Issue.shown)) := by
    rw [Report.lineBreaks_compact fun i hi => (hbreaks i hi).1,
      lineBreaks_join_congr fun i hi => (hbreaks i hi).2]
  refine ⟨by rw [Report.compact, hsorted], Issue.pairwise_sort _, hcount, ?_,
    fun i hi => isSpread_of_broken haccepts hsaved hload hfiles hdefines hi⟩
  rw [hcount, Nat.add_eq_left, ← Unbroken, unbroken_join_iff, List.forall_mem_map]
  refine forall₂_congr fun i hi => ?_
  obtain ⟨hnames, hmessage⟩ := hbreaks i hi
  rw [Unbroken, Unbroken, Report.lineBreaks_compactLine hnames, hmessage]

/-! ### A refused invocation in two lines -/

/-- A source with an argument that goes on in the next line and is no text. -/
def spreadTree : FileTree where
  nodes := .ofList [(["p"], .directory), (["p", "src"], .directory),
    (["p", "src", "a.c"], .file (Utf8.encode "SPGM(a, b\nc)\n"))]

/-- The issue that a run reports. -/
def spreadIssue : Issue := .parseError {
  error := .invalidValue "b\nc"
  macroName := "SPGM"
  location := ⟨"src/a.c", 1, 1⟩
  lineText := "SPGM(a, b" }

theorem run_spreadTree : sample.run spreadTree = .ok (sample.runAfter spreadTree {}) :=
  run_of_has (by decide +kernel)

theorem issues_spreadTree : (sample.runAfter spreadTree {}).issues = [spreadIssue] := by
  decide +kernel

theorem compact_of_run_spreadTree : ∃ e, spreadIssue = .parseError e ∧
    sample.IsSpread spreadTree e ∧
      lineBreaks (Report.compact (sample.runAfter spreadTree {}).issues) = 1 + 1 := by
  have hnone : spreadTree.read? sample.databasePath = none := by decide +kernel
  have hsaved : sample.HasSavedDatabase (fun _ => True) spreadTree := fun content hread => by
    rw [hnone] at hread
    cases hread
  obtain ⟨-, -, hcount, -, hspread⟩ := compact_of_run (Config.acceptsTexts_of_check rfl)
    (show sample.defines = sample.config.stringDefines [] from rfl) (by decide +kernel) hsaved
    run_spreadTree
  rw [issues_spreadTree] at hcount hspread
  obtain ⟨e, he, -, hspread⟩ := hspread spreadIssue List.mem_cons_self (by decide +kernel)
  refine ⟨e, he, hspread, ?_⟩
  rw [issues_spreadTree, hcount]
  decide +kernel

/-- One issue, and two lines. -/
theorem compact_spreadTree : ∃ o, sample.run spreadTree = .ok o ∧ o.issues.length = 1 ∧
    Report.compact o.issues =
      "src/a.c:1:1: error[parse-error]: cannot use `b\nc` as a string value\n" ∧
    lineBreaks (Report.compact o.issues) = 2 := by
  refine ⟨_, run_spreadTree, ?_⟩
  rw [issues_spreadTree]
  decide +kernel

end Project

end FlashStrings
