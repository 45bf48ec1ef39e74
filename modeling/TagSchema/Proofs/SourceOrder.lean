import TagSchema.Proofs.FileOrder
import TagSchema.Proofs.Lines
import TagSchema.Proofs.Tracing

/-! The tree is in the order of the sources. A file is read as if each of its words stood at its own
number, and then moved to the lines; so the numbers say in which order the tags of two nodes were read,
also where these stand on one line. -/
namespace TagSchema
open Grammar Node

namespace Node

/-- Below a root, the children of a tag are in order and were all written; further inside, a child may
have been filled in, which is then the only one. -/
def InOrder (chart : Chart) (root : Node) : Prop :=
  (∀ key, root.Strung chart key) ∧ ∀ child ∈ root.children, child.Every (Ordered chart)

theorem Gathers.inOrder {chart : Chart} {later : List Place} {root : Node}
    (gathers : root.Gathers chart later) : root.InOrder chart :=
  ⟨gathers.strung, gathers.ordered⟩

mutual

def inPhase (phase : Phase) : Node → Node
  | ⟨tag, signature, place, words, values, children, _⟩ =>
    ⟨tag, signature, place, words, values, inPhaseAll phase children, phase⟩

def inPhaseAll (phase : Phase) : List Node → List Node
  | [] => []
  | node :: nodes => node.inPhase phase :: inPhaseAll phase nodes

end

theorem inPhaseAll_eq_map (phase : Phase) (nodes : List Node) :
    inPhaseAll phase nodes = nodes.map (inPhase phase) := by
  induction nodes with
  | nil => rfl
  | cons node nodes ih => rw [inPhaseAll, ih, List.map_cons]

theorem inPhase_eq (phase : Phase) (node : Node) : node.inPhase phase =
    { node with children := node.children.map (inPhase phase), phase } := by
  cases node
  rw [inPhase, inPhaseAll_eq_map]

theorem finalizeAll_eq_map {symbols : Symbols} {nodes after : List Node}
    (h : ∀ node ∈ nodes, ∀ final, node.finalize symbols = .ok () final → final = node.inPhase .finalized)
    (hrun : finalizeAll symbols nodes = .ok () after) : after = nodes.map (inPhase .finalized) := by
  induction nodes generalizing after with
  | nil =>
    cases hrun
    rfl
  | cons node nodes ih =>
    rw [List.forall_mem_cons] at h
    rw [finalizeAll] at hrun
    cases hnode : node.finalize symbols with
    | error fault final =>
      rw [hnode] at hrun
      cases hrun
    | ok _ final =>
      rw [hnode] at hrun
      dsimp only at hrun
      cases hnodes : finalizeAll symbols nodes with
      | error fault finals =>
        rw [hnodes] at hrun
        cases hrun
      | ok _ finals =>
        rw [hnodes] at hrun
        cases hrun
        rw [List.map_cons, h.1 final hnode, ih h.2 hnodes]

theorem finalize_eq_inPhase {symbols : Symbols} (node : Node) :
    (node.Every fun inner => inner.phase ≠ .finalized) → ∀ after, node.finalize symbols = .ok () after →
      after = node.inPhase .finalized := by
  -- Induction on the tree: finalizing changes nothing but phases.
  induction node using induct with
  | parent node ih =>
    intro hphase after hrun
    rw [finalize_eq hphase.self] at hrun
    cases hall : finalizeAll symbols node.children with
    | error fault children =>
      rw [hall] at hrun
      cases hrun
    | ok _ children =>
      rw [hall] at hrun
      dsimp only at hrun
      split at hrun
      · cases hrun
      · cases hrun
        rw [inPhase_eq]
        rw [finalizeAll_eq_map (fun child hchild => ih child hchild (hphase.child hchild)) hall]

end Node

namespace Reading

def counted (text : String) : List (Place × String) :=
  ((Text.content text).zipIdx 1).map fun (word, number) => (⟨"", number⟩, word)

def countedTree (text : String) : Node :=
  (after (recite (counted text) >>= fun _ => closeAll) standard).root.node

def placeOf (source : String × String) (number : Place) : Place :=
  ((⟨"", 0⟩ :: (spoken source).map (·.1))[number.line]?).getD number

/-- Each tag is the word of its number, and numbers increase. -/
def counting (text : String) : Chart where
  written key place := place.file = "" ∧ 0 < place.line ∧
    (Text.content text)[place.line - 1]? = some ("@" ++ key.spelling)
  before place other := place.line < other.line

/-- Each tag is a word of the file, and lines do not decrease. -/
def lining (source : String × String) : Chart where
  written key place := (place, "@" ++ key.spelling) ∈ spoken source
  before place other := place.line ≤ other.line

theorem map_spoken (source : String × String) :
    (spoken source).map (·.2) = Text.content source.2 := by
  unfold spoken
  rw [← Text.map_numberedWords, List.map_map]
  rfl

theorem displace_counted (source : String × String) :
    displace (placeOf source) (counted source.2) = spoken source := by
  apply List.ext_getElem?
  intro i
  unfold displace counted
  rw [List.getElem?_map, List.getElem?_map, List.getElem?_zipIdx, ← map_spoken, List.getElem?_map]
  cases hword : (spoken source)[i]? with
  | none => rfl
  | some word =>
    have hplace : placeOf source ⟨"", 1 + i⟩ = word.1 := by
      unfold placeOf
      simp [Nat.add_comm 1 i, hword]
    simp [Prod.map, hplace]

theorem covers_counting (text : String) : (counting text).Covers (counted text) := by
  have hplaces : (counted text).map (·.1) =
      (List.range' 1 (Text.content text).length).map fun number => ⟨"", number⟩ := by
    unfold counted
    rw [List.map_map, ← List.zipIdx_map_snd, List.map_map]
    rfl
  refine ⟨fun key place hmem => ?_, ?_, ?_⟩
  · obtain ⟨⟨word, number⟩, hword, hpair⟩ := List.mem_map.mp hmem
    cases hpair
    obtain ⟨hfirst, hfound⟩ := List.mem_zipIdx_iff_le_and_getElem?_sub.mp hword
    exact ⟨rfl, hfirst, hfound⟩
  · rw [hplaces, List.pairwise_map]
    exact List.pairwise_lt_range' 1
  · rw [hplaces, List.forall_mem_map]
    intro number hnumber
    exact (List.mem_range'_1.mp hnumber).1

theorem covers_lining (source : String × String) : (lining source).Covers (spoken source) := by
  refine ⟨fun key place hmem => hmem, ?_, fun place _ => Nat.zero_le place.line⟩
  unfold spoken
  rw [List.map_map, List.pairwise_map]
  exact Text.pairwise_numberedWords source.2

/-- A file that can be read leads to the tree of its counted words, moved to its lines. -/
theorem alone_in_order {source : String × String} {lone : Reading}
    (h : file source.1 source.2 standard = .ok () lone) :
    (alone source).root.node = (countedTree source.2).relocate (placeOf source) ∧
      (countedTree source.2).InOrder (counting source.2) ∧
      (alone source).root.node.InOrder (lining source) := by
  have halone : alone source = lone := by
    unfold alone after
    rw [h]
  have hmoved := moved_recite (placeOf source) rfl (counted source.2)
  rw [displace_counted, ← file_eq_recite, h] at hmoved
  unfold countedTree after
  generalize hcounted : (recite (counted source.2) >>= fun _ => closeAll) standard = result at hmoved ⊢
  generalize hlone : EStateM.Result.ok () lone = result' at hmoved
  -- The run on the numbers ends well, since it would otherwise have failed on the lines, too.
  cases hmoved with
  | error => cases hlone
  | ok _ between =>
    cases hlone
    rw [halone]
    rw [file_eq_recite] at h
    exact ⟨rfl, (gathers_of_recite (covers_counting _) hcounted).inOrder,
      (gathers_of_recite (covers_lining _) h).inOrder⟩

theorem Sound.root_of_finish_eq {reading : Reading} {corpus : Corpus} (sound : reading.Sound)
    (hopened : reading.opened = []) (h : reading.finish = .ok corpus) :
    corpus.root = reading.root.node.inPhase .finalized := by
  rw [sound.finish_eq hopened] at h
  cases hrun : { reading.root.node with phase := .closed }.finalize reading.symbols with
  | error fault lost =>
    rw [hrun] at h
    cases h
  | ok _ root =>
    rw [hrun] at h
    cases h
    have hphase : { reading.root.node with phase := .closed }.Every fun inner =>
        inner.phase ≠ Phase.finalized := by
      refine sound.root.settled.imp fun inner settled => ?_
      rw [settled.closed]
      decide
    have hroot := finalize_eq_inPhase _ hphase root hrun
    rw [inPhase_eq] at hroot
    rw [inPhase_eq]
    exact hroot

structure InSourceOrder (sources : List (String × String)) (reading : Reading) : Prop where
  /-- Under the root, the nodes of a tag follow each other file by file. -/
  files : ∀ key, reading.root.node.childrenOf key = sources.flatMap (yields key)
  /-- What a file yields is what it yields when each of its words stands at its own number. -/
  moved : ∀ source ∈ sources,
    (alone source).root.node = (countedTree source.2).relocate (placeOf source)
  /-- The tags of the children of a node were read one after the other, behind the tag of the node. -/
  counted : ∀ source ∈ sources, (countedTree source.2).InOrder (counting source.2)
  /-- So the lines of the children do not decrease, and none is before that of the node. -/
  lined : ∀ source ∈ sources, (alone source).root.node.InOrder (lining source)
  finished : ∀ corpus, reading.finish = .ok corpus →
    corpus.root = reading.root.node.inPhase .finalized

theorem files_in_order {sources : List (String × String)} {reading : Reading}
    (h : Reading.files sources standard = .ok () reading) : ∀ source ∈ sources,
      (alone source).root.node = (countedTree source.2).relocate (placeOf source) ∧
        (countedTree source.2).InOrder (counting source.2) ∧
        (alone source).root.node.InOrder (lining source) := by
  intro source hsource
  obtain ⟨hread, -⟩ := (sound_standard.files_ok_iff rfl sources).mp ⟨reading, h⟩
  obtain ⟨lone, hlone⟩ := hread source hsource
  exact alone_in_order hlone

theorem childrenOf_files {sources : List (String × String)} {reading : Reading}
    (h : Reading.files sources standard = .ok () reading) (key : Keyword) :
    reading.root.node.childrenOf key = sources.flatMap (yields key) := by
  obtain ⟨-, -, hchildren⟩ := sound_standard.files_yield rfl h
  have hnone : standard.root.node.childrenOf key = [] := rfl
  rw [hchildren, hnone, List.nil_append]

/-- Nodes are attached when their scopes close, and children are filled in on the way; still the tree is
in the order in which the tags were written. -/
theorem inSourceOrder_of_files {sources : List (String × String)} {reading : Reading}
    (h : Reading.files sources standard = .ok () reading) : InSourceOrder sources reading := by
  obtain ⟨sound, hopened, -⟩ := sound_standard.files_yield rfl h
  have horder := files_in_order h
  exact ⟨childrenOf_files h, fun source hsource => (horder source hsource).1,
    fun source hsource => (horder source hsource).2.1,
    fun source hsource => (horder source hsource).2.2,
    fun corpus hcorpus => sound.root_of_finish_eq hopened hcorpus⟩

/-- Here two fields are written on one line, the description and the version of a class are filled in, and
a class comes behind an enumeration. -/
theorem inSourceOrder_two_files :
    let sources := [("a.talk", "@class A of bytes @field uint8 x @field uint8 y\n@class B\n"),
      ("b.talk", "@enumeration E\n@constant c @constant d\n@class C\n")]
    ∃ reading, Reading.files sources standard = .ok () reading ∧ InSourceOrder sources reading ∧
      (reading.root.node.childrenOf .classWord).map (·.place) =
        [⟨"a.talk", 1⟩, ⟨"a.talk", 2⟩, ⟨"b.talk", 3⟩] := by
  intro sources
  have hplaces : (match Reading.files sources standard with
      | .ok () reading => (reading.root.node.childrenOf .classWord).map (·.place)
      | .error .. => []) = [⟨"a.talk", 1⟩, ⟨"a.talk", 2⟩, ⟨"b.talk", 3⟩] := by
    decide +kernel
  cases hread : Reading.files sources standard with
  | error fault lost =>
    rw [hread] at hplaces
    cases hplaces
  | ok _ reading =>
    rw [hread] at hplaces
    exact ⟨reading, rfl, inSourceOrder_of_files hread, hplaces⟩

end Reading
end TagSchema
