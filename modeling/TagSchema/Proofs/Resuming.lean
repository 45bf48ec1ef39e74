import TagSchema.Proofs.Concordance
import TagSchema.Proofs.SourceOrder

/-! Finalizing again after a failure. Further registrations take no name away, so a reference that resolves
once resolves ever after. The nodes that a failed run has finalized would therefore pass again, and a second
run that skips them comes to what a first run would have come to. -/
namespace TagSchema

namespace Symbols

def Enriches (symbols earlier : Symbols) : Prop :=
  ∀ name space, earlier.resolves name space → symbols.resolves name space

namespace Ledger

variable {ledger : Ledger} {calls : List Call}

theorem table_call_of_ne (ledger : Ledger) {last : Call} {space : Namespace} (h : space ≠ last.space) :
    (ledger.call last).symbols.table space = ledger.symbols.table space := by
  unfold call
  rcases register_cases ledger.symbols last with ⟨-, hgranted⟩ | ⟨-, fault, hrefused⟩
  · rw [hgranted]
    exact (table_setTable _ _ _ _).trans (if_neg h)
  · rw [hrefused]
    exact (table_setTable _ _ _ _).trans (if_neg h)

theorem Follows.index_prefix (follows : ledger.Follows calls) (last : Call) (space : Namespace) :
    (ledger.symbols.table space).index <+: ((ledger.call last).symbols.table space).index := by
  by_cases hspace : space = last.space
  · subst hspace
    rcases follows.call_views last with ⟨-, hsame⟩ | ⟨-, hmore⟩
    · exact hsame ▸ List.prefix_rfl
    · rw [hmore]
      exact List.prefix_append _ _
  · exact ledger.table_call_of_ne hspace ▸ List.prefix_rfl

theorem Follows.enriches_call (follows : ledger.Follows calls) (last : Call) :
    (ledger.call last).symbols.Enriches ledger.symbols := by
  intro name space hresolves
  obtain ⟨symbol, hsymbol⟩ := ((follows.wellCut space).resolves_iff name).mp hresolves
  have hlisted := (follows.index_prefix last space).mem hsymbol
  exact (((follows.call last).wellCut space).resolves_iff name).mpr ⟨symbol, hlisted⟩

theorem enriches_ofCalls (calls further : List Call) :
    (ofCalls (calls ++ further)).symbols.Enriches (ofCalls calls).symbols := by
  -- Induction on the further calls.
  induction further using List.reverseRecOn with
  | nil =>
    rw [List.append_nil]
    exact fun _ _ hresolves => hresolves
  | append_singleton further last ih =>
    rw [← List.append_assoc, ofCalls_concat]
    intro name space hresolves
    exact (follows_ofCalls (calls ++ further)).enriches_call last name space (ih name space hresolves)

end Ledger
end Symbols

/-- What a first run tells about a second one. Where the first succeeds, the second succeeds alike, also on
what the first has made; where it fails, the second treats what is left like what there was. -/
structure Resumes (first second : α → EStateM.Result Fault α Unit) (a : α) : Prop where
  done : ∀ after, first a = .ok () after → second a = .ok () after ∧ second after = .ok () after
  left : ∀ fault after, first a = .error fault after → second after = second a

namespace Resumes

variable {first second : α → EStateM.Result Fault α Unit} {a after : α}

theorem of_ok (hfirst : first a = .ok () after) (hsecond : second a = .ok () after)
    (hagain : second after = .ok () after) : Resumes first second a := by
  constructor
  · intro other hother
    cases hfirst.symm.trans hother
    exact ⟨hsecond, hagain⟩
  · intro fault other hother
    cases hfirst.symm.trans hother

theorem of_error {fault : Fault} (hfirst : first a = .error fault after)
    (hsecond : second after = second a) : Resumes first second a := by
  constructor
  · intro other hother
    cases hfirst.symm.trans hother
  · intro fault other hother
    cases hfirst.symm.trans hother
    exact hsecond

end Resumes

namespace Node

variable {symbols earlier : Symbols} {node : Node}

theorem referenceFault?_eq_none_of_enriches (enriches : symbols.Enriches earlier)
    (h : node.referenceFault? earlier = none) : node.referenceFault? symbols = none := by
  rw [referenceFault?_eq_none] at h ⊢
  intro reference hreference space hspace name hname
  exact (h reference hreference space hspace name hname).imp_right (enriches name space)

theorem finalize_of_finalized (h : node.phase = .finalized) (symbols : Symbols) :
    node.finalize symbols = .ok () node := by
  obtain ⟨tag, signature, place, words, values, children, phase⟩ := node
  rw [finalize]
  exact if_pos h

section children

variable {nodes : List Node}

theorem finalizeAll_of_error {fault : Fault} {left : Node} (h : node.finalize symbols = .error fault left)
    (nodes : List Node) : finalizeAll symbols (node :: nodes) = .error fault (left :: nodes) := by
  rw [finalizeAll, h]

theorem finalizeAll_of_ok {final : Node} (h : node.finalize symbols = .ok () final) (nodes : List Node) :
    finalizeAll symbols (node :: nodes) =
      match finalizeAll symbols nodes with
      | .error fault nodes => .error fault (final :: nodes)
      | .ok () nodes => .ok () (final :: nodes) := by
  cases hall : finalizeAll symbols nodes with
  | error fault rest => simp only [finalizeAll, h, hall]
  | ok _ rest => simp only [finalizeAll, h, hall]

theorem resumes_finalizeAll (h : ∀ node ∈ nodes, Resumes (finalize earlier) (finalize symbols) node) :
    Resumes (finalizeAll earlier) (finalizeAll symbols) nodes := by
  induction nodes with
  | nil => exact .of_ok rfl rfl rfl
  | cons node nodes ih =>
    rw [List.forall_mem_cons] at h
    have hnodes := ih h.2
    cases hnode : node.finalize earlier with
    | error fault left =>
      refine .of_error (finalizeAll_of_error hnode nodes) ?_
      rw [finalizeAll, finalizeAll, h.1.left fault left hnode]
    | ok _ final =>
      obtain ⟨hfirst, hfinal⟩ := h.1.done final hnode
      have hrun := finalizeAll_of_ok hnode nodes
      cases hrest : finalizeAll earlier nodes with
      | error fault left =>
        rw [hrest] at hrun
        refine .of_error hrun ?_
        rw [finalizeAll_of_ok hfinal, finalizeAll_of_ok hfirst, hnodes.left fault left hrest]
      | ok _ finals =>
        obtain ⟨hsecond, hfinals⟩ := hnodes.done finals hrest
        rw [hrest] at hrun
        refine .of_ok hrun ?_ ?_
        · rw [finalizeAll_of_ok hfirst, hsecond]
        · rw [finalizeAll_of_ok hfinal, hfinals]

end children

theorem resumes_finalize (enriches : symbols.Enriches earlier) (node : Node) :
    Resumes (finalize earlier) (finalize symbols) node := by
  -- Induction on the tree. A node is checked with the children that the run has made of its own,
  -- and the second run leaves these as they are.
  induction node using induct with
  | parent node ih =>
    by_cases hphase : node.phase = .finalized
    · have hskip := finalize_of_finalized hphase
      exact .of_ok (hskip earlier) (hskip symbols) (hskip symbols)
    · have hchildren := resumes_finalizeAll ih
      have hrun := finalize_eq hphase
      have hstill (children : List Node) : ({ node with children } : Node).phase ≠ .finalized := hphase
      have hleft (children : List Node) := finalize_eq (hstill children)
      have hearlier := hrun earlier
      cases hall : finalizeAll earlier node.children with
      | error fault children =>
        rw [hall] at hearlier
        refine .of_error hearlier ?_
        simp only [hleft, hrun, hchildren.left fault children hall]
      | ok _ children =>
        obtain ⟨hfirst, hagain⟩ := hchildren.done children hall
        rw [hall] at hearlier
        dsimp only at hearlier
        cases hown : { node with children }.referenceFault? earlier with
        | some fault =>
          rw [hown] at hearlier
          refine .of_error hearlier ?_
          simp only [hleft, hrun, hfirst, hagain]
        | none =>
          have hnone := referenceFault?_eq_none_of_enriches enriches hown
          rw [hown] at hearlier
          refine .of_ok hearlier ?_ (finalize_of_finalized rfl symbols)
          simp only [hrun, hfirst, hnone]

/-- Under the symbols of further calls, finalizing succeeds wherever it did; where it failed, the tree that
was left comes to the same as the tree that there was, in which success finalizes every node. -/
theorem finalize_again (calls further : List Symbols.Call) (node : Node)
    (hfresh : node.Every fun inner => inner.phase ≠ .finalized) :
    let earlier := (Symbols.Ledger.ofCalls calls).symbols
    let symbols := (Symbols.Ledger.ofCalls (calls ++ further)).symbols
    (∀ after, node.finalize earlier = .ok () after → node.finalize symbols = .ok () after) ∧
      (∀ fault left, node.finalize earlier = .error fault left →
        left.finalize symbols = node.finalize symbols) ∧
      ∀ after, node.finalize symbols = .ok () after → after = node.inPhase .finalized := by
  intro earlier symbols
  have hresumes := resumes_finalize (Symbols.Ledger.enriches_ofCalls calls further) node
  exact ⟨fun after hrun => (hresumes.done after hrun).1, hresumes.left, finalize_eq_inPhase node hfresh⟩

/-- Here the first run finalizes one of two fields, whose type it finds by a suffix. The call in between
brings no delimiter, and the second run goes on with the other field. -/
theorem finalize_again_between_fields :
    let reading := Reading.after (Reading.file "t.talk" "@class A\n@field B x\n@field C y\n") .standard
    let calls : List Symbols.Call := [⟨⟨"geo.B", .classes, ⟨"b.talk", 1⟩⟩, some '.'⟩]
    let further : List Symbols.Call := [⟨⟨"C", .classes, ⟨"c.talk", 1⟩⟩, none⟩]
    let symbols := (Symbols.Ledger.ofCalls (calls ++ further)).symbols
    ∃ node ∈ reading.root.node.childrenOf .classWord, ∃ fault left,
      node.finalize (Symbols.Ledger.ofCalls calls).symbols = .error fault left ∧
        fault.cause = .unresolved "C" .classes ∧
        (left.childrenOf .field).map (·.phase) = [.finalized, .closed] ∧
        left.finalize symbols = node.finalize symbols ∧
        node.finalize symbols = .ok () (node.inPhase .finalized) := by
  intro reading calls further symbols
  have hruns : (reading.root.node.childrenOf .classWord).map (fun node =>
      (match node.finalize (Symbols.Ledger.ofCalls calls).symbols with
        | .error fault left => some (fault.cause, (left.childrenOf .field).map (·.phase))
        | .ok .. => none,
      match node.finalize symbols with
        | .error .. => false
        | .ok .. => true)) =
      [(some (.unresolved "C" .classes, [.finalized, .closed]), true)] := by
    decide +kernel
  obtain ⟨node, hnode, hboth⟩ := List.mem_map.mp (hruns ▸ List.mem_singleton_self _)
  obtain ⟨hfirst, hsecond⟩ := Prod.mk.inj hboth
  have sound : reading.Sound := (Reading.Reachable.file _ _ .standard).sound
  have hfresh : node.Every fun inner => inner.phase ≠ .finalized := by
    refine (sound.root.gathering.settled node (mem_childrenOf.mp hnode).1).imp fun inner settled => ?_
    rw [settled.closed]
    decide
  obtain ⟨-, hleft, hall⟩ := finalize_again calls further node hfresh
  cases hearlier : node.finalize (Symbols.Ledger.ofCalls calls).symbols with
  | ok _ after =>
    rw [hearlier] at hfirst
    cases hfirst
  | error fault left =>
    rw [hearlier] at hfirst
    obtain ⟨hcause, hphases⟩ := Prod.mk.inj (Option.some.inj hfirst)
    cases hrun : node.finalize symbols with
    | error fault after =>
      rw [hrun] at hsecond
      cases hsecond
    | ok _ after =>
      have hsame : left.finalize symbols = node.finalize symbols := hleft fault left hearlier
      exact ⟨node, hnode, fault, left, hearlier, hcause, hphases, hsame, hall after hrun ▸ hrun⟩

end Node
end TagSchema
