import TagSchema.Command
import TagSchema.Proofs.Inheritance
import TagSchema.Proofs.Rendering
import TagSchema.Proofs.Wholeness

/-! What the commands show of the same files. They fail alike, and then touch no file; otherwise they count
and name the same nodes, though one takes these from the tree, one from its mapping and one from the
symbols. -/
namespace TagSchema
open Grammar Node

namespace Json

def field? (name : String) : Json → Option Json
  | record fields => (fields.find? (·.1 = name)).map (·.2)
  | _ => none

def name? (entry : Json) : Option String :=
  match entry.field? "name" with
  | some (text name) => some name
  | _ => none

/-- The names of the entries of an array, if each entry is a record that shows its name. -/
def names? : Json → Option (List String)
  | array entries => entries.mapM name?
  | _ => none

variable {fields : List (String × Json)} {name : String} {value : Json}

theorem names?_array {entries : List Json} {names : List String} (h : entries.map name? = names.map some) :
    (array entries).names? = some names := by
  rw [names?, ← List.map_id' names]
  induction entries generalizing names with
  | nil => rw [List.map_eq_nil_iff.mp h.symm]; rfl
  | cons entry entries ih =>
    obtain ⟨name, names, rfl⟩ := List.exists_cons_of_ne_nil (l := names) (by rintro rfl; cases h)
    rw [List.map_cons, List.map_cons, List.cons.injEq] at h
    rw [List.mapM_cons, h.1, ih h.2]
    rfl

theorem field?_of_mem (hnodup : (fields.map (·.1)).Nodup) (h : (name, value) ∈ fields) :
    (record fields).field? name = some value := by
  cases hfound : fields.find? (·.1 = name) with
  | none =>
    have hmissed : ¬decide (name = name) = true := List.find?_eq_none.mp hfound (name, value) h
    exact absurd (decide_eq_true rfl) hmissed
  | some found =>
    have hname : found.1 = name := by simpa using List.find?_some hfound
    have hsame := List.inj_on_of_nodup_map hnodup (List.mem_of_find?_eq_some hfound) h hname
    rw [field?, hfound, hsame, Option.map_some]

theorem field?_sorted (hnodup : (fields.map (·.1)).Nodup) (h : (name, value) ∈ fields) :
    (record fields).sorted.field? name = some value.sorted := by
  have hperm := List.mergeSort_perm (sortedFields fields) fun a b => decide (a.1 ≤ b.1)
  have hnames : (sortedFields fields).map (·.1) = fields.map (·.1) := by
    rw [sortedFields_eq_map, List.map_map]
    rfl
  rw [sorted]
  refine field?_of_mem ?_ (hperm.mem_iff.mpr ?_)
  · rw [(hperm.map _).nodup_iff, hnames]
    exact hnodup
  · rw [sortedFields_eq_map]
    exact List.mem_map.mpr ⟨(name, value), h, rfl⟩

theorem names_sublist {ι : Type} (slots : List ι) (name : ι → String) (shown : ι → Option Json) :
    ((slots.filterMap fun slot => (shown slot).map (name slot, ·)).map (·.1)).Sublist
      (slots.map name) := by
  induction slots with
  | nil => exact .slnil
  | cons slot slots ih =>
    rw [List.filterMap_cons, List.map_cons]
    cases shown slot with
    | none => exact ih.cons _
    | some json => exact ih.cons_cons _

end Json

theorem Node.Conforms.name?_mapping {node : Node} (conforms : node.Conforms) {full : String}
    (h : node.text? .name = some full) : node.mapping.sorted.name? = some full := by
  suffices hfield : node.mapping.sorted.field? "name" = some (.text full) by rw [Json.name?, hfield]
  obtain ⟨value, hvalue, htext⟩ := Option.bind_eq_some_iff.mp h
  obtain rfl := Datum.eq_text htext
  obtain ⟨property, hproperty, hkey, -⟩ := conforms.value .name _ hvalue
  have hnodup : ((slots node.signature).map slotName).Nodup := by
    rw [conforms.standard, slots, List.map_append, List.map_map, List.map_map]
    exact Standard.spellings_nodup _
  rw [mapping_eq]
  have hshown : (Json.text full).sorted = .text full := rfl
  rw [← hshown]
  refine Json.field?_sorted (hnodup.sublist (Json.names_sublist _ _ _)) (List.mem_filterMap.mpr ?_)
  refine ⟨.inl property, List.mem_append_left _ (List.mem_map.mpr ⟨property, hproperty, rfl⟩), ?_⟩
  rw [slotJson, slotName, hkey, hvalue]
  rfl

namespace Reading

variable {reading : Reading} {corpus : Corpus}

theorem Sound.names_of_finish (sound : reading.Sound) (h : reading.finish = .ok corpus)
    (space : Namespace) : ∃ names : List String,
      (corpus.nodes space.tag).map (·.text? .name) = names.map some ∧
        (corpus.symbols.byName space).map (·.name) = names.mergeSort fun a b => decide (a ≤ b) := by
  obtain ⟨after, hafter, hroot, hsymbols, -⟩ := sound.corpus_of_finish h
  refine ⟨(after.root.node.declared space).map (·.name), ?_, ?_⟩
  · have hdeclared := congrArg (List.map (Option.map Symbol.name)) (hafter.map_symbol? space)
    rw [Corpus.nodes, hroot, childrenOf_inPhase]
    simpa [Node.symbol?, Function.comp_def] using hdeclared
  · rw [hsymbols, Symbols.byName, hafter.symbols space, Symbols.Table.byName_listing]
    exact List.map_mergeSort fun _ _ _ _ => rfl

end Reading

namespace Disk

variable {disk : Disk}

theorem reachable_of_readFiles {sources : List String} {reading after : Reading}
    (hreading : reading.Reachable) (h : disk.readFiles sources reading = .ok after) : after.Reachable := by
  induction sources generalizing reading with
  | nil =>
    cases h
    exact hreading
  | cons path sources ih =>
    rw [readFiles] at h
    split at h
    · cases h
    · next text _ =>
      split at h
      · cases h
      · next between hfile =>
        have hbetween := Reading.Reachable.file path text hreading
        rw [Reading.after, hfile] at hbetween
        exact ih hbetween h

theorem reachable_of_corpus {sources : List String} {corpus : Corpus} (h : disk.corpus sources = .ok corpus) :
    ∃ reading : Reading, reading.Reachable ∧ reading.finish = .ok corpus := by
  unfold Disk.corpus at h
  cases hread : disk.readFiles sources .standard with
  | error failure =>
    rw [hread] at h
    cases h
  | ok reading =>
    rw [hread] at h
    refine ⟨reading, reachable_of_readFiles .standard hread, ?_⟩
    change reading.finish.mapError _ = _ at h
    cases hfinish : reading.finish with
    | error fault =>
      rw [hfinish] at h
      cases h
    | ok found =>
      rw [hfinish] at h
      cases h
      rfl

/-- The disk after a run, if what the run writes can be written. -/
def after? (disk : Disk) (outcome : Outcome) : Option Disk :=
  outcome.write.elim (some disk) fun (path, text) => disk.write? path text

end Disk

namespace Command

variable {disk : Disk} {settings : Settings} {paths : List String} {corpus : Corpus}

theorem load_cases (disk : Disk) (settings : Settings) (paths : List String) :
    (∃ message heading, load disk settings paths = .error message ∧
        check disk settings paths = failed message heading) ∨
      ∃ sources corpus, disk.sources settings paths = .ok sources ∧ disk.corpus sources = .ok corpus ∧
        load disk settings paths = .ok corpus ∧
        check disk settings paths =
          { exit := 0
            stdout := s!"Checking {sources.length} source file(s)\n" ++ counts corpus ++ "Valid.\n" } := by
  unfold check load
  cases disk.sources settings paths with
  | error failure => exact .inl ⟨failure.message, "", rfl, rfl⟩
  | ok sources =>
    simp only [Except.mapError, bind, Except.bind]
    cases hcorpus : disk.corpus sources with
    | error failure => exact .inl ⟨failure.message, _, rfl, rfl⟩
    | ok corpus => exact .inr ⟨sources, corpus, rfl, hcorpus, rfl, rfl⟩

theorem perform_exit_or_write (action : Action) :
    (perform disk settings action).exit = 0 ∨ (perform disk settings action).write = none := by
  cases action with
  | check paths =>
    rw [perform]
    obtain ⟨message, heading, -, hcheck⟩ | ⟨sources, corpus, -, -, -, hcheck⟩ :=
      load_cases disk settings paths
    · exact .inr (by rw [hcheck]; rfl)
    · exact .inl (by rw [hcheck])
  | symbols paths json =>
    rw [perform, symbols]
    cases load disk settings paths with
    | error message => exact .inr rfl
    | ok corpus => exact .inl rfl
  | dump paths out compact =>
    rw [perform, dump]
    cases load disk settings paths with
    | error message => exact .inr rfl
    | ok corpus =>
      cases out with
      | none => exact .inl rfl
      | some path =>
        dsimp only
        split
        · exact .inl rfl
        · exact .inr rfl

theorem disk_of_failed (arguments : List String) (h : (run disk arguments).exit ≠ 0) :
    disk.after? (run disk arguments) = some disk := by
  suffices hwrite : (run disk arguments).write = none by rw [Disk.after?, hwrite]; rfl
  unfold run at h ⊢
  split
  · rfl
  · rfl
  · rfl
  · split
    · rfl
    · next hrequest _ settings hsettings =>
      simp only [hrequest, hsettings] at h
      exact (perform_exit_or_write _).resolve_left h

theorem field?_resultsJson (hroot : corpus.root.signature = Standard.signature .base) (space : Namespace) :
    (resultsJson corpus).field? space.tag.spelling =
      some (.array ((corpus.nodes space.tag).map (·.mapping.sorted))) := by
  obtain ⟨tag, htag, hkey⟩ : ∃ tag ∈ (Standard.signature .base).tags, tag.key = space.tag := by
    cases space <;> decide
  have hmem : (space.tag.spelling, .array ((corpus.nodes space.tag).map (·.mapping))) ∈
      corpus.results.map fun entry => (entry.1.spelling, Json.array entry.2) := by
    rw [Corpus.results, hroot, List.map_map]
    exact List.mem_map.mpr ⟨tag, htag, by rw [Function.comp_apply, hkey]⟩
  rw [resultsJson, Json.field?_sorted ?_ hmem, Json.sorted, Json.sortedAll_eq_map, List.map_map]
  · rfl
  · have hspellings : ((Standard.signature .base).tags.map (·.key.spelling)).Nodup := by decide
    rw [Corpus.results, hroot, List.map_map, List.map_map]
    exact hspellings

theorem field?_symbolsJson (symbols : Symbols) (space : Namespace) :
    (symbolsJson symbols).field? space.spelling = some (.array ((symbols.byName space).map symbolJson)) := by
  have hspellings : (Namespace.all.map (·.spelling)).Nodup := by decide
  refine Json.field?_of_mem ?_ (List.mem_map.mpr ⟨space, space.mem_all, rfl⟩)
  rw [List.map_map]
  exact hspellings

end Command

/-- The dump and the symbols of a corpus name the same nodes, the dump as they came and the symbols in the
order of their names. -/
theorem Reading.Reachable.reports {reading : Reading} (h : reading.Reachable) {corpus : Corpus}
    (hfinish : reading.finish = .ok corpus) (space : Namespace) :
    ∃ names : List String, names.length = (corpus.nodes space.tag).length ∧
      ((Command.resultsJson corpus).field? space.tag.spelling).bind Json.names? = some names ∧
        ((Command.symbolsJson corpus.symbols).field? space.spelling).bind Json.names? =
          some (names.mergeSort fun a b => decide (a ≤ b)) := by
  obtain ⟨names, hnodes, hsymbols⟩ := h.sound.names_of_finish hfinish space
  refine ⟨names, by simpa using (congrArg List.length hnodes).symm, ?_, ?_⟩
  · rw [Command.field?_resultsJson (h.sound.root_of_finish hfinish).2, Option.bind_some]
    refine Json.names?_array ?_
    rw [List.map_map, ← hnodes]
    refine List.map_congr_left fun node hnode => ?_
    obtain ⟨full, -, hfull⟩ := List.mem_map.mp (hnodes ▸ List.mem_map.mpr ⟨node, hnode, rfl⟩)
    have conforms := ((h.sound.final hfinish).child (Node.mem_childrenOf.mp hnode).1).self.conforms
    rw [Function.comp_apply, conforms.name?_mapping hfull.symm, hfull]
  · rw [Command.field?_symbolsJson, Option.bind_some]
    refine Json.names?_array ?_
    rw [← hsymbols, List.map_map, List.map_map]
    rfl

namespace Command

/-- Check, dump and symbols fail alike on the same paths, or count and name the same nodes. A run that fails
leaves the files as they are. -/
theorem run_agree (disk : Disk) {checking dumping listing : List String} {explicit : Option String}
    {paths : List String} {compact json : Bool}
    (hcheck : Invocation.ofArguments? checking = some (.perform explicit (.check paths)))
    (hdump : Invocation.ofArguments? dumping = some (.perform explicit (.dump paths none compact)))
    (hsymbols : Invocation.ofArguments? listing = some (.perform explicit (.symbols paths json))) :
    ((∃ message heading, run disk checking = failed message heading ∧
          run disk dumping = failed message "" ∧ run disk listing = failed message "") ∨
        ∃ settings sources corpus, Settings.load disk explicit = .ok settings ∧
          disk.sources settings paths = .ok sources ∧ disk.corpus sources = .ok corpus ∧
          run disk checking =
            { exit := 0
              stdout := s!"Checking {sources.length} source file(s)\n" ++
                String.join (Namespace.all.map fun space =>
                  s!"  {space.tag}: {(corpus.nodes space.tag).length}\n") ++ "Valid.\n" } ∧
          run disk dumping =
            { exit := 0
              stdout := render { settings with pretty := settings.pretty && !compact } (resultsJson corpus)
                ++ "\n" } ∧
          run disk listing =
            { exit := 0
              stdout := if json then render settings (symbolsJson corpus.symbols) ++ "\n"
                else corpus.symbols.display } ∧
          ∀ space : Namespace, ∃ names : List String, names.length = (corpus.nodes space.tag).length ∧
            ((resultsJson corpus).field? space.tag.spelling).bind Json.names? = some names ∧
              ((symbolsJson corpus.symbols).field? space.spelling).bind Json.names? =
                some (names.mergeSort fun a b => decide (a ≤ b))) ∧
      ∀ arguments, (run disk arguments).exit ≠ 0 → disk.after? (run disk arguments) = some disk := by
  refine ⟨?_, fun arguments => disk_of_failed arguments⟩
  simp only [run, hcheck, hdump, hsymbols]
  cases hsettings : Settings.load disk explicit with
  | error failure => exact .inl ⟨failure.message, "", rfl, rfl, rfl⟩
  | ok settings =>
    simp only [perform, dump, symbols]
    obtain ⟨message, heading, hload, hfailed⟩ | ⟨sources, corpus, hsources, hcorpus, hload, hshown⟩ :=
      load_cases disk settings paths
    · rw [hload]
      exact .inl ⟨message, heading, hfailed, rfl, rfl⟩
    · obtain ⟨reading, hreachable, hfinish⟩ := Disk.reachable_of_corpus hcorpus
      rw [hload]
      exact .inr ⟨settings, sources, corpus, rfl, hsources, hcorpus, hshown, rfl, rfl,
        hreachable.reports hfinish⟩

/-- Here two classes come out of the order of their names. -/
theorem run_agree_out_of_order :
    let disk : Disk := ⟨.directory [("b.talk", .file "@class b.B\n@end\n@class a.A\n@end\n".toUTF8)], []⟩
    (run disk ["check", "b.talk"]).stdout =
        "Checking 1 source file(s)\n  class: 2\n  enumeration: 0\n  glossary: 0\n  protocol: 0\nValid.\n" ∧
      (run disk ["dump", "b.talk", "--compact"]).exit = 0 ∧
      ∃ corpus names, disk.corpus ["b.talk"] = .ok corpus ∧
        (run disk ["symbols", "--json", "b.talk"]).stdout = (symbolsJson corpus.symbols).pretty ++ "\n" ∧
        ((resultsJson corpus).field? "class").bind Json.names? = some names ∧
        ((symbolsJson corpus.symbols).field? "classes").bind Json.names? =
          some (names.mergeSort fun a b => decide (a ≤ b)) := by
  intro disk
  have hsettings : Settings.load disk none = .ok {} := by decide +kernel
  have hsources : disk.sources {} ["b.talk"] = .ok ["b.talk"] := by decide +kernel
  have hexit : (run disk ["check", "b.talk"]).exit = 0 := by decide +kernel
  have hcheck : Invocation.ofArguments? ["check", "b.talk"] = some (.perform none (.check ["b.talk"])) := by
    decide +kernel
  have hdump : Invocation.ofArguments? ["dump", "b.talk", "--compact"] =
      some (.perform none (.dump ["b.talk"] none true)) := by
    decide +kernel
  have hlist : Invocation.ofArguments? ["symbols", "--json", "b.talk"] =
      some (.perform none (.symbols ["b.talk"] true)) := by
    decide +kernel
  obtain ⟨⟨message, heading, hfailed, -⟩ | ⟨settings, sources, corpus, hload, hfound, hcorpus, -, hdumping,
      hlisting, hnames⟩, -⟩ := run_agree disk hcheck hdump hlist
  · rw [hfailed] at hexit
    cases hexit
  · cases hload.symm.trans hsettings
    cases hfound.symm.trans hsources
    obtain ⟨names, -, hdumped, hlisted⟩ := hnames .classes
    refine ⟨by decide +kernel, by rw [hdumping], corpus, names, hcorpus, ?_, hdumped, hlisted⟩
    rw [hlisting]
    rfl

end Command
end TagSchema
