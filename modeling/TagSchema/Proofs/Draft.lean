import TagSchema.Proofs.Arrangement
import TagSchema.Proofs.Slots
import TagSchema.Text.Words

/-! Declarations as they are written out in full: which trees of them are legal, how a tree is spelled
as words, and which node it stands for. -/
namespace TagSchema
open Grammar

namespace Property

def share (property : Property) (hand : Nat) : Nat :=
  match property.arity with
  | .fixed words => min words hand
  | .range _ most => most.elim hand (min hand)

def fewest (property : Property) : Nat :=
  match property.arity with
  | .fixed words => words
  | .range least _ => least

/-- The value that some words make, computed; `value?_eq_some_iff` says which that is. No words make
no value. -/
def value? (property : Property) (words : List String) : Option Datum :=
  if words.isEmpty then none
  else
    (Conversion.applyAll property.conversions (.text (" ".intercalate words))).toOption.filter
      fun value => property.rules.all (·.check.accepts value)

theorem value?_eq_some_iff {property : Property} {words : List String} {value : Datum} :
    property.value? words = some value ↔ words ≠ [] ∧ property.Makes words value := by
  unfold value?
  by_cases hwords : words = []
  · exact iff_of_false (by simp [hwords]) fun h => h.1 hwords
  · have hconverts : (Conversion.applyAll property.conversions (.text (" ".intercalate words))).toOption =
        some value ↔ Conversion.Converts property.conversions (.text (" ".intercalate words)) value := by
      rw [← Conversion.applyAll_eq_ok_iff]
      cases Conversion.applyAll property.conversions (.text (" ".intercalate words)) with
      | error failure => simp [Except.toOption]
      | ok converted => simp [Except.toOption]
    rw [if_neg (by simpa using hwords), Option.filter_eq_some_iff, hconverts]
    constructor
    · rintro ⟨hconverted, haccepted⟩
      exact ⟨hwords, hconverted, by simpa using haccepted⟩
    · rintro ⟨-, hconverted, haccepted⟩
      exact ⟨hconverted, by simpa using haccepted⟩

/-- The words are as many as the property wants, and make a value of it. -/
def Suits (property : Property) (words : List String) : Prop :=
  (words = [] → property.required = false) ∧
    (words ≠ [] → property.fewest ≤ words.length ∧ (property.value? words).isSome)

instance (property : Property) (words : List String) : Decidable (property.Suits words) :=
  inferInstanceAs (Decidable ((_ → _) ∧ (_ → _)))

end Property

/-- The words of each property, where the properties take their shares in order. -/
def deal : List Property → List String → List (Property × List String)
  | [], _ => []
  | property :: properties, words =>
    let share := property.share words.length
    (property, words.take share) :: deal properties (words.drop share)

def leftover : List Property → List String → List String
  | [], words => words
  | property :: properties, words =>
    leftover properties (words.drop (property.share words.length))

def dealt (properties : List Property) (words : List String) (key : Keyword) : Option Datum :=
  ((deal properties words).find? (·.1.key = key)).bind fun (property, words) => property.value? words

/-- The numbers of the constants of an enumeration, where some have one of their own. The others
count on from the constant before them, the first one from a start. -/
def numbers (start : Int) : List (Option Int64) → List Int
  | [] => []
  | own :: rest =>
    let number := own.elim start (·.toInt)
    number :: numbers (number + 1) rest

/-- A use of a tag, which opens a schema: words, and uses of other tags inside. -/
structure Draft where
  tag : Keyword
  schema : SchemaName
  words : List String
  inner : List Draft

namespace Draft

def signature (draft : Draft) : Signature := Standard.signature draft.schema

def innerOf (draft : Draft) (key : Keyword) : List Draft :=
  draft.inner.filter (·.tag = key)

def value? (draft : Draft) (key : Keyword) : Option Datum :=
  dealt draft.signature.properties draft.words key

def spare (draft : Draft) : List String :=
  leftover draft.signature.properties draft.words

def scalar? (draft : Draft) : Option Datum :=
  draft.signature.scalar.bind draft.value?

def constants (draft : Draft) : List (Option Int64) :=
  (draft.innerOf .constant).map fun constant => (constant.value? .value).bind (·.integer?)

section spelling

mutual

/-- The words of a draft: its tag, its own words, the drafts inside, and `@end` where its schema
declares that. -/
def spelled : Draft → List String
  | ⟨tag, schema, words, inner⟩ =>
    ("@" ++ tag.spelling) :: words ++ spelledAll inner ++
      if ((Standard.signature schema).tag? .endWord).isSome then ["@" ++ Keyword.endWord.spelling]
      else []

def spelledAll : List Draft → List String
  | [] => []
  | draft :: drafts => draft.spelled ++ spelledAll drafts

end

def text (drafts : List Draft) : String := " ".intercalate (spelledAll drafts)

end spelling

section nodes

/-- What a node has under a key after closing. A term without a value stands for itself. -/
def held (name : SchemaName) (words : List String) (key : Keyword) : Option Datum :=
  let own := dealt (Standard.signature name).properties words
  if name = .term ∧ key = .value then (own .value).or (own .name) else own key

def leaf (place : Place) (tag : Keyword) (name : SchemaName) (words : List String) : Node :=
  ⟨tag, Standard.signature name, place, [], held name words, [], .closed⟩

def filling (place : Place) (tag : Tag) (words : List String) : Option Node :=
  tag.schema.map fun name => leaf place tag.key name words

def implied (place : Place) (name : SchemaName) : List String → List Node
  | [] => []
  | words => ((Standard.signature name).implicitTag?.bind (filling place · words)).toList

def default? (place : Place) (nodes : List Node) (tag : Tag) : Option Node :=
  if nodes.any (·.tag = tag.key) then none
  else tag.default.bind fun words => filling place tag (Text.words words.toList)

def filled (place : Place) (name : SchemaName) (words : List String) (nodes : List Node) :
    List Node :=
  implied place name (leftover (Standard.signature name).properties words) ++
    (Standard.signature name).tags.filterMap (default? place nodes)

def own (constant : Node) : Option Int64 :=
  (constant.values .value).bind (·.integer?)

def withNumber (constant : Node) (number : Int) : Node :=
  if (own constant).isSome then constant else constant.set .value (.integer (.ofInt number))

def numbered (nodes : List Node) : List Node :=
  let constants := nodes.filter (·.tag = .constant)
  constants.zipWith withNumber (numbers 0 (constants.map own)) ++ nodes.filter (·.tag ≠ .constant)

def written (name : SchemaName) (nodes : List Node) : List Node :=
  if name = .enumeration then numbered nodes else nodes

def whole (place : Place) (tag : Keyword) (name : SchemaName) (words : List String)
    (nodes : List Node) : Node :=
  { leaf place tag name words with
    children := Node.arrange (written name nodes ++ filled place name words nodes) }

mutual

def node (place : Place) : Draft → Node
  | ⟨tag, schema, words, inner⟩ => whole place tag schema words (nodes place inner)

def nodes (place : Place) : List Draft → List Node
  | [] => []
  | draft :: drafts => draft.node place :: nodes place drafts

end

end nodes

section legality

mutual

def parts : Draft → List Draft
  | ⟨tag, schema, words, inner⟩ => ⟨tag, schema, words, inner⟩ :: partsAll inner

def partsAll : List Draft → List Draft
  | [] => []
  | draft :: drafts => draft.parts ++ partsAll drafts

end

def Suited (name : SchemaName) (words : List String) : Prop :=
  (∀ dealt ∈ deal (Standard.signature name).properties words, dealt.1.Suits dealt.2) ∧
    leftover (Standard.signature name).properties words = []

instance (name : SchemaName) (words : List String) : Decidable (Suited name words) :=
  inferInstanceAs (Decidable (_ ∧ _))

def IsWord (word : String) : Prop :=
  word.toList ≠ [] ∧ word.toList.all (!Text.isBlank ·) ∧ word.toList.head? ≠ some '@'

instance (word : String) : Decidable (IsWord word) :=
  inferInstanceAs (Decidable (_ ∧ _ ∧ _))

def DeclaredIn (draft : Draft) (name : SchemaName) : Prop :=
  ∃ tag ∈ (Standard.signature name).tags, tag.key = draft.tag ∧ tag.schema = some draft.schema

instance (draft : Draft) (name : SchemaName) : Decidable (draft.DeclaredIn name) :=
  inferInstanceAs (Decidable (∃ tag ∈ _, _ ∧ _))

/-- A draft satisfies its schema. -/
structure Fits (draft : Draft) : Prop where
  data : ∀ word ∈ draft.words, IsWord word
  suited : ∀ dealt ∈ deal draft.signature.properties draft.words, dealt.1.Suits dealt.2
  /-- There are spare words only for an implicit tag that is not given explicitly. -/
  spare : draft.spare ≠ [] → ∃ tag ∈ draft.signature.implicitTag?, draft.innerOf tag.key = []
  declared : ∀ child ∈ draft.inner, child.DeclaredIn draft.schema
  singular : ∀ tag ∈ draft.signature.tags, tag.multi = false → (draft.innerOf tag.key).length ≤ 1
  required : ∀ tag ∈ draft.signature.tags, tag.required → draft.innerOf tag.key ≠ []
  unique : ∀ tag ∈ draft.signature.tags, ∀ key ∈ tag.unique,
    (draft.innerOf tag.key).Pairwise fun child sibling => child.value? key ≠ sibling.value? key
  allowed : ∀ tag ∈ draft.signature.tags, ∀ allowed ∈ tag.allowed, ∀ child ∈ draft.innerOf tag.key,
    ∀ value ∈ child.scalar?, value.text?.any allowed.contains
  /-- No class is its own parent. -/
  parent : draft.schema = .classSchema →
    ∀ child ∈ draft.innerOf .inherits, child.scalar? ≠ draft.value? .name
  /-- No constant counts beyond the greatest number. -/
  numbers : draft.schema = .enumeration →
    ∀ number ∈ numbers 0 draft.constants, number ≤ Int64.maxValue.toInt

instance (draft : Draft) : Decidable draft.Fits :=
  decidable_of_iff (_ ∧ _ ∧ _ ∧ _ ∧ _ ∧ _ ∧ _ ∧ _ ∧ _ ∧ _)
    ⟨fun ⟨data, suited, spare, declared, singular, required, unique, allowed, parent, numbers⟩ =>
      ⟨data, suited, spare, declared, singular, required, unique, allowed, parent, numbers⟩,
    fun ⟨data, suited, spare, declared, singular, required, unique, allowed, parent, numbers⟩ =>
      ⟨data, suited, spare, declared, singular, required, unique, allowed, parent, numbers⟩⟩

def Legal (draft : Draft) : Prop := ∀ part ∈ draft.parts, part.Fits

instance (draft : Draft) : Decidable draft.Legal :=
  inferInstanceAs (Decidable (∀ part ∈ draft.parts, part.Fits))

/-- Top-level drafts that can stand together. -/
structure Consistent (drafts : List Draft) : Prop where
  declared : ∀ draft ∈ drafts, draft.DeclaredIn .base
  legal : ∀ draft ∈ drafts, draft.Legal
  distinct : drafts.Pairwise fun draft other =>
    draft.tag = other.tag → draft.value? .name ≠ other.value? .name

instance (drafts : List Draft) : Decidable (Consistent drafts) :=
  decidable_of_iff (_ ∧ _ ∧ _)
    ⟨fun ⟨declared, legal, distinct⟩ => ⟨declared, legal, distinct⟩,
    fun ⟨declared, legal, distinct⟩ => ⟨declared, legal, distinct⟩⟩

end legality

section recursion

/-- Induction on a draft: what passes from all drafts inside to the draft holds of every draft. -/
theorem induct {motive : Draft → Prop}
    (inner : ∀ draft, (∀ child ∈ draft.inner, motive child) → motive draft) :
    ∀ draft, motive draft
  | ⟨_, _, _, drafts⟩ => inner _ fun child _ => induct inner child
termination_by draft => sizeOf draft
decreasing_by
  have hsize := List.sizeOf_lt_of_mem ‹child ∈ drafts›
  simp only [mk.sizeOf_spec]
  omega

theorem spelledAll_eq_flatMap (drafts : List Draft) : spelledAll drafts = drafts.flatMap spelled := by
  induction drafts with
  | nil => rfl
  | cons draft drafts ih => rw [spelledAll, ih, List.flatMap_cons]

theorem spelled_eq (draft : Draft) :
    draft.spelled = ("@" ++ draft.tag.spelling) :: draft.words ++ draft.inner.flatMap spelled ++
      if (draft.signature.tag? .endWord).isSome then ["@" ++ Keyword.endWord.spelling] else [] := by
  cases draft
  rw [spelled, spelledAll_eq_flatMap]
  rfl

theorem nodes_eq_map (place : Place) (drafts : List Draft) :
    nodes place drafts = drafts.map (node place) := by
  induction drafts with
  | nil => rfl
  | cons draft drafts ih => rw [nodes, ih, List.map_cons]

theorem node_eq (place : Place) (draft : Draft) :
    draft.node place =
      whole place draft.tag draft.schema draft.words (draft.inner.map (node place)) := by
  cases draft
  rw [node, nodes_eq_map]

theorem partsAll_eq_flatMap (drafts : List Draft) : partsAll drafts = drafts.flatMap parts := by
  induction drafts with
  | nil => rfl
  | cons draft drafts ih => rw [partsAll, ih, List.flatMap_cons]

theorem legal_iff {draft : Draft} : draft.Legal ↔ draft.Fits ∧ ∀ child ∈ draft.inner, child.Legal := by
  have hparts : draft.parts = draft :: draft.inner.flatMap parts := by
    cases draft
    rw [parts, partsAll_eq_flatMap]
  simp only [Legal, hparts, List.forall_mem_cons, List.mem_flatMap]
  grind

end recursion
end Draft
end TagSchema
