import TagSchema.Proofs.Independence
import TagSchema.Proofs.Outline

/-! The order of the files matters only for the order of the nodes under the root. -/
namespace TagSchema.Reading
open Grammar Node

def yields (key : Keyword) (source : String × String) : List Node :=
  (alone source).root.node.childrenOf key

theorem files_cons (source : String × String) (sources : List (String × String)) :
    files (source :: sources) = file source.1 source.2 >>= fun _ => files sources := rfl

theorem collide_iff_of_behind {prior lone combined other : Reading} (behind : Behind prior lone combined) :
    Collide combined other ↔ Collide prior other ∨ Collide lone other := by
  unfold Collide
  simp only [behind.children, List.mem_append]
  constructor
  · rintro ⟨space, node, hnode | hnode, hrest⟩
    · exact .inl ⟨space, node, hnode, hrest⟩
    · exact .inr ⟨space, node, hnode, hrest⟩
  · rintro (⟨space, node, hnode, hrest⟩ | ⟨space, node, hnode, hrest⟩)
    · exact ⟨space, node, .inl hnode, hrest⟩
    · exact ⟨space, node, .inr hnode, hrest⟩

theorem Sound.files_ok_iff {reading : Reading} (sound : reading.Sound) (hopened : reading.opened = [])
    (sources : List (String × String)) :
    (∃ combined, files sources reading = .ok () combined) ↔
      (∀ source ∈ sources, ∃ lone, file source.1 source.2 standard = .ok () lone) ∧
        (∀ source ∈ sources, ¬ Collide reading (alone source)) ∧
        sources.Pairwise fun source later => ¬ Collide (alone source) (alone later) := by
  -- Induction on the files: each is read behind the files before it.
  induction sources generalizing reading with
  | nil => exact ⟨fun _ => ⟨nofun, nofun, .nil⟩, fun _ => ⟨reading, rfl⟩⟩
  | cons source sources ih =>
    have hfile := sound.file_ok_iff hopened source
    rw [List.forall_mem_cons, List.forall_mem_cons, List.pairwise_cons, files_cons]
    constructor
    · rintro ⟨combined, hrun⟩
      obtain ⟨_, between, hfirst, hrest⟩ := bind_eq_ok hrun
      have behind := sound.file_behind hopened hfirst
      obtain ⟨hlone, hcollide⟩ := hfile.mp ⟨between, hfirst⟩
      obtain ⟨hall, hfree, hpairwise⟩ :=
        (ih behind.whole (opened_of_file hfirst)).mp ⟨combined, hrest⟩
      have hboth (later : String × String) (hlater : later ∈ sources) :=
        not_or.mp (mt (collide_iff_of_behind behind).mpr (hfree later hlater))
      exact ⟨⟨hlone, hall⟩, ⟨hcollide, fun later hlater => (hboth later hlater).1⟩,
        fun later hlater => (hboth later hlater).2, hpairwise⟩
    · rintro ⟨⟨hlone, hall⟩, ⟨hcollide, hfree⟩, hfirst, hpairwise⟩
      obtain ⟨between, hrun⟩ := hfile.mpr ⟨hlone, hcollide⟩
      have behind := sound.file_behind hopened hrun
      rw [bind_of_ok hrun]
      refine (ih behind.whole (opened_of_file hrun)).mpr ⟨hall, fun later hlater => ?_, hpairwise⟩
      rw [collide_iff_of_behind behind]
      exact not_or.mpr ⟨hfree later hlater, hfirst later hlater⟩

theorem Sound.files_yield {reading combined : Reading} (sound : reading.Sound)
    (hopened : reading.opened = []) {sources : List (String × String)}
    (h : files sources reading = .ok () combined) :
    combined.Sound ∧ combined.opened = [] ∧ ∀ key, combined.root.node.childrenOf key =
      reading.root.node.childrenOf key ++ sources.flatMap (yields key) := by
  induction sources generalizing reading with
  | nil =>
    cases h
    exact ⟨sound, hopened, fun key => by rw [List.flatMap_nil, List.append_nil]⟩
  | cons source sources ih =>
    obtain ⟨_, between, hfirst, hrest⟩ := bind_eq_ok h
    have behind := sound.file_behind hopened hfirst
    obtain ⟨hsound, hclosed, hchildren⟩ := ih behind.whole (opened_of_file hfirst) hrest
    refine ⟨hsound, hclosed, fun key => ?_⟩
    rw [hchildren, behind.children, List.flatMap_cons, List.append_assoc]
    rfl

theorem not_collide_standard (other : Reading) : ¬ Collide standard other := by
  rintro ⟨space, node, hnode, -⟩
  cases hnode

/-- What can be seen of the symbols and of the end of a reading. -/
structure Alike (reading other : Reading) : Prop where
  byName : ∀ space, reading.symbols.byName space = other.symbols.byName space
  resolves : ∀ name space, reading.symbols.resolves name space = other.symbols.resolves name space
  display : reading.symbols.display = other.symbols.display
  finish : (∃ corpus, reading.finish = .ok corpus) ↔ ∃ corpus, other.finish = .ok corpus

theorem Sound.finish_ok_iff_children {reading : Reading} (sound : reading.Sound)
    (hopened : reading.opened = []) : (∃ corpus, reading.finish = .ok corpus) ↔
      ∀ key, ∀ child ∈ reading.root.node.childrenOf key,
        child.Every fun inner => inner.referenceFault? reading.symbols = none := by
  rw [sound.finish_ok_iff hopened, every_iff, referenceFault?_eq_none, sound.root.signature]
  constructor
  · rintro ⟨-, hchildren⟩ key child hchild
    exact hchildren child (mem_childrenOf.mp hchild).1
  · intro hchildren
    exact ⟨nofun, fun child hchild => hchildren child.tag child (mem_childrenOf.mpr ⟨hchild, rfl⟩)⟩

theorem Sound.alike {reading other : Reading} (sound : reading.Sound) (sound' : other.Sound)
    (hopened : reading.opened = []) (hopened' : other.opened = [])
    (hperm : ∀ key, (reading.root.node.childrenOf key).Perm (other.root.node.childrenOf key)) :
    Alike reading other := by
  have hdeclared (space : Namespace) :
      (reading.root.node.declared space).Perm (other.root.node.declared space) :=
    (hperm space.tag).filterMap _
  have hresolves (name : String) (space : Namespace) :
      reading.symbols.resolves name space = other.symbols.resolves name space :=
    sound.symbols.resolves_of_perm sound'.symbols (hdeclared space) name
  refine ⟨fun space => ?_, hresolves, ?_, ?_⟩
  · exact sound.symbols.byName_of_perm sound'.symbols (hdeclared space) (sound.distinct space)
  · exact sound.symbols.display_perm sound'.symbols hdeclared sound.distinct
  · rw [sound.finish_ok_iff_children hopened, sound'.finish_ok_iff_children hopened']
    simp only [referenceFault?_eq_none, hresolves, (hperm _).mem_iff]

/-- Files can be read one after the other just if each can be read alone and no name is declared in
two of them. In any other order they can then be read, too. The nodes of each tag follow each other
as the files do, and all else that can be seen is the same. -/
theorem files_in_any_order (sources : List (String × String)) :
    ((∃ reading, files sources standard = .ok () reading) ↔
      (∀ source ∈ sources, ∃ lone, file source.1 source.2 standard = .ok () lone) ∧
        sources.Pairwise fun source other => ¬ Collide (alone source) (alone other)) ∧
    ∀ reading permuted, files sources standard = .ok () reading → permuted.Perm sources →
      ∃ other, files permuted standard = .ok () other ∧
        (∀ key, other.root.node.childrenOf key = permuted.flatMap (yields key)) ∧
        Alike reading other := by
  have hok (sources : List (String × String)) :
      (∃ reading, files sources standard = .ok () reading) ↔
        (∀ source ∈ sources, ∃ lone, file source.1 source.2 standard = .ok () lone) ∧
          sources.Pairwise fun source other => ¬ Collide (alone source) (alone other) := by
    rw [sound_standard.files_ok_iff rfl]
    have hfree : ∀ source ∈ sources, ¬ Collide standard (alone source) :=
      fun source _ => not_collide_standard (alone source)
    exact and_congr_right fun _ => ⟨And.right, fun hpairwise => ⟨hfree, hpairwise⟩⟩
  refine ⟨hok sources, fun reading permuted hreading hperm => ?_⟩
  obtain ⟨hall, hpairwise⟩ := (hok sources).mp ⟨reading, hreading⟩
  have hsymm {source other : String × String} (h : ¬ Collide (alone source) (alone other)) :
      ¬ Collide (alone other) (alone source) := by
    rintro ⟨space, node, hnode, node', hnode', name, hname, hname'⟩
    exact h ⟨space, node', hnode', node, hnode, name, hname', hname⟩
  obtain ⟨other, hother⟩ := (hok permuted).mpr
    ⟨fun source hsource => hall source (hperm.subset hsource), hperm.symm.pairwise hpairwise hsymm⟩
  obtain ⟨sound, hopened, hchildren⟩ := sound_standard.files_yield rfl hreading
  obtain ⟨sound', hopened', hchildren'⟩ := sound_standard.files_yield rfl hother
  refine ⟨other, hother, hchildren', sound.alike sound' hopened hopened' fun key => ?_⟩
  rw [hchildren, hchildren']
  exact (hperm.symm.flatMap_right _).append_left _

/-- Here each of two files refers to what the other declares. -/
theorem mutual_references_in_any_order :
    let sources := [("a.talk", "@class A\n@inherits B\n"), ("b.talk", "@class B\n@field A x\n")]
    ∃ reading other, files sources standard = .ok () reading ∧
      files sources.reverse standard = .ok () other ∧
      (∀ key, other.root.node.childrenOf key = sources.reverse.flatMap (yields key)) ∧
      Alike reading other := by
  intro sources
  have hok : (match files sources standard with
      | .ok .. => true
      | .error .. => false) = true := by
    decide +kernel
  cases hread : files sources standard with
  | error fault lost =>
    rw [hread] at hok
    cases hok
  | ok _ reading =>
    obtain ⟨other, hother, hchildren, halike⟩ :=
      (files_in_any_order sources).2 reading sources.reverse hread (List.reverse_perm sources)
    exact ⟨reading, other, rfl, hother, hchildren, halike⟩

end TagSchema.Reading
