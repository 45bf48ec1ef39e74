import Mathlib.Logic.Relation
import TagSchema.Proofs.Framing
import TagSchema.Proofs.Refusals
import TagSchema.Proofs.Scopes
import TagSchema.Proofs.Slicing

/-! What closing does to the symbols. It makes calls that registrations ask for, and nothing takes a call
back. So closing that fails leaves the symbols with all the calls that were granted before: those of the
children that were filled in, and of its own registrations those before one that is refused. -/
namespace TagSchema
open Grammar Symbols

namespace Symbols

/-- The calls are granted, one after the other, and lead from some symbols to others. -/
inductive Grants : Symbols → List Call → Symbols → Prop
  | nil {symbols : Symbols} : Grants symbols [] symbols
  | cons {symbols between after : Symbols} {call : Call} {calls : List Call}
    (h : register call.name call.space call.place call.delimiter symbols = .ok () between)
    (rest : Grants between calls after) : Grants symbols (call :: calls) after

namespace Grants

variable {symbols between after : Symbols} {calls more : List Call}

theorem append (h : Grants symbols calls between) (rest : Grants between more after) :
    Grants symbols (calls ++ more) after := by
  induction h with
  | nil => exact rest
  | cons hcall _ ih => exact .cons hcall (ih rest)

theorem length_byName (h : Grants symbols calls after) (space : Namespace) :
    (after.byName space).length =
      (symbols.byName space).length + (calls.filter (·.space = space)).length := by
  induction h with
  | nil => rfl
  | @cons symbols between after call calls hcall _ ih =>
    have hentries : (between.byName space).length =
        (symbols.byName space).length + if call.space = space then 1 else 0 := by
      rw [(between.byName_perm_entries space).length_eq, (symbols.byName_perm_entries space).length_eq,
        List.length_map, List.length_map]
      rcases register_cases symbols call with ⟨-, hgranted⟩ | ⟨-, fault, hrefused⟩
      · cases hgranted.symm.trans hcall
        rw [table_setTable]
        by_cases hspace : space = call.space
        · subst hspace
          simp [Table.add, Table.adoptDelimiter]
        · rw [if_neg hspace, if_neg (Ne.symm hspace), Nat.add_zero]
      · cases hrefused.symm.trans hcall
    rw [ih, hentries, List.filter_cons]
    by_cases hspace : call.space = space
    · simp only [hspace, decide_true, if_true, List.length_cons]
      omega
    · simp only [hspace, decide_false, if_false, Bool.false_eq_true, Nat.add_zero]

theorem eq_nil (h : Grants symbols calls after) (hsame : after.SameAnswers symbols) : calls = [] := by
  cases calls with
  | nil => rfl
  | cons call calls =>
    have hlength := h.length_byName call.space
    rw [hsame.byName, List.filter_cons_of_pos (by simp), List.length_cons] at hlength
    omega

theorem ofCalls (h : Grants (Ledger.ofCalls calls).symbols more after) :
    after = (Ledger.ofCalls (calls ++ more)).symbols ∧
      (Ledger.ofCalls (calls ++ more)).granted =
        (Ledger.ofCalls calls).granted ++ more.map (·.toRequest) := by
  generalize hstart : (Ledger.ofCalls calls).symbols = start at h
  induction h generalizing calls with
  | nil => simp [hstart]
  | @cons _ between _ call more hcall _ ih =>
    have hledger : Ledger.ofCalls (calls ++ [call]) =
        ⟨between, (Ledger.ofCalls calls).granted ++ [call.toRequest]⟩ := by
      rw [Ledger.ofCalls_concat, Ledger.call, hstart, hcall]
    obtain ⟨hafter, hgranted⟩ := ih (by rw [hledger])
    rw [List.append_assoc, List.singleton_append] at hafter hgranted
    refine ⟨hafter, ?_⟩
    rw [hgranted, hledger, List.map_cons, List.append_assoc, List.singleton_append]

end Grants
end Symbols

/-- Closing a node of the schema may fill in a child of the other. -/
def Grammar.FillsIn (grammar : Grammar) (schema inner : Schema) : Prop :=
  ∃ tag ∈ schema.tags, (tag.implicit ∨ tag.default.isSome) ∧ tag.schema.bind grammar.find? = some inner

def Node.call? (node : Node) (registration : Registration) : Option Call :=
  ((node.values registration.key).bind (·.symbol?)).map fun name =>
    ⟨⟨name, registration.space, node.place⟩, registration.delimiter⟩

namespace Closing

def Stems (source : Registration → Prop) (call : Call) : Prop :=
  ∃ registration, source registration ∧ call.space = registration.space ∧
    call.delimiter = registration.delimiter

def Touched (symbols after : Symbols) : Prop :=
  after = symbols ∨ ∃ call : Call, ∃ fault,
    Symbols.register call.name call.space call.place call.delimiter symbols = .error fault after

/-- What a step of closing does to the symbols: it makes calls, which are granted, up to one that may be
refused where the step fails. -/
inductive Leaves (source : Registration → Prop) (symbols : Symbols) :
    EStateM.Result Fault (Node × Symbols) α → Prop
  | ok {calls : List Call} {a : α} {node : Node} {after : Symbols}
    (hstems : ∀ call ∈ calls, Stems source call) (hgrants : Grants symbols calls after) :
    Leaves source symbols (.ok a (node, after))
  | error {calls : List Call} {fault : Fault} {node : Node} {between after : Symbols}
    (hstems : ∀ call ∈ calls, Stems source call) (hgrants : Grants symbols calls between)
    (htouched : Touched between after) : Leaves source symbols (.error fault (node, after))

namespace Leaves

variable {source : Registration → Prop} {symbols : Symbols} {node : Node}

theorem same_ok (a : α) (node : Node) : Leaves source symbols (.ok a (node, symbols)) :=
  .ok (List.forall_mem_nil _) .nil

theorem same_error (fault : Fault) (node : Node) :
    Leaves source symbols (.error fault (node, symbols) : EStateM.Result Fault _ α) :=
  .error (List.forall_mem_nil _) .nil (.inl rfl)

theorem mono {other : Registration → Prop} (hsource : ∀ registration, source registration → other registration)
    {result : EStateM.Result Fault (Node × Symbols) α} (h : Leaves source symbols result) :
    Leaves other symbols result := by
  have hstems {call : Call} : Stems source call → Stems other call :=
    fun ⟨registration, hregistration, hmade⟩ => ⟨registration, hsource _ hregistration, hmade⟩
  cases h with
  | ok hcalls hgrants => exact .ok (fun call hcall => hstems (hcalls call hcall)) hgrants
  | error hcalls hgrants htouched =>
    exact .error (fun call hcall => hstems (hcalls call hcall)) hgrants htouched

theorem bind {step : Closing β} {next : β → Closing α} (hstep : Leaves source symbols (step (node, symbols)))
    (hnext : ∀ b between registered, step (node, symbols) = .ok b (between, registered) →
      Leaves source registered (next b (between, registered))) :
    Leaves source symbols ((step >>= next) (node, symbols)) := by
  generalize hrun : step (node, symbols) = result at hstep
  cases hstep with
  | error hcalls hgrants htouched =>
    rw [bind_of_error hrun]
    exact .error hcalls hgrants htouched
  | @ok calls b between registered hcalls hgrants =>
    rw [bind_of_ok hrun]
    have hrest := hnext b between registered hrun
    generalize next b (between, registered) = result at hrest
    cases hrest with
    | ok hmore hlater =>
      exact .ok (List.forall_mem_append.mpr ⟨hcalls, hmore⟩) (hgrants.append hlater)
    | error hmore hlater htouched =>
      exact .error (List.forall_mem_append.mpr ⟨hcalls, hmore⟩) (hgrants.append hlater) htouched

theorem forM {items : List β} {body : β → Closing Unit}
    (h : ∀ item ∈ items, ∀ node symbols, Leaves source symbols (body item (node, symbols))) (node : Node)
    (symbols : Symbols) : Leaves source symbols (items.forM body (node, symbols)) := by
  induction items generalizing node symbols with
  | nil => exact .same_ok () node
  | cons item items ih =>
    rw [List.forall_mem_cons] at h
    exact (h.1 node symbols).bind fun _ between registered _ => ih h.2 between registered

theorem of_quiet {P : Node → Prop} {step : Closing α} {Q : α → Node → Prop} {E : Fault → Prop}
    (h : Quiet P step Q E) (hnode : P node) (symbols : Symbols) :
    Leaves source symbols (step (node, symbols)) := by
  rcases h node hnode with ⟨a, after, -, hrun⟩ | ⟨fault, after, -, hrun⟩
  · rw [hrun]
    exact .same_ok a after
  · rw [hrun]
    exact .same_error fault after

end Leaves

section registering

variable (node : Node) (symbols : Symbols)

theorem register_of_none {registration : Registration} (h : node.call? registration = none) :
    Closing.register registration (node, symbols) = .ok () (node, symbols) := by
  have hnone : (node.values registration.key).bind (·.symbol?) = none := Option.map_eq_none_iff.mp h
  simp only [Closing.register, hnone]

theorem forM_register_cases (registrations : List Registration) :
    (∃ after, registrations.forM Closing.register (node, symbols) = .ok () (node, after) ∧
      Grants symbols (registrations.filterMap node.call?) after) ∨
    ∃ done refused rest fault between after, registrations = done ++ refused :: rest ∧
      registrations.forM Closing.register (node, symbols) = .error fault (node, after) ∧
      fault.kind = .registrationConflict ∧ Grants symbols (done.filterMap node.call?) between ∧
      Touched between after := by
  induction registrations generalizing symbols with
  | nil => exact .inl ⟨symbols, rfl, .nil⟩
  | cons registration registrations ih =>
    rw [List.forM_eq_forM, List.forM_cons]
    cases hcall : node.call? registration with
    | none =>
      rw [bind_of_ok (register_of_none node symbols hcall), List.filterMap_cons_none hcall]
      refine (ih symbols).imp_right ?_
      rintro ⟨done, refused, rest, fault, between, after, rfl, hrun, hkind, hgrants, htouched⟩
      refine ⟨registration :: done, refused, rest, fault, between, after, rfl, hrun, hkind, ?_, htouched⟩
      rwa [List.filterMap_cons_none hcall]
    | some call =>
      obtain ⟨name, hfull, rfl⟩ := Option.map_eq_some_iff.mp hcall
      cases hregister : Symbols.register name registration.space node.place registration.delimiter symbols with
      | error fault after =>
        refine .inr ⟨[], registration, registrations, fault.inScope node.tag, symbols, after, rfl,
          bind_of_error (register_of_error hfull hregister), ?_, .nil,
          .inr ⟨⟨⟨name, registration.space, node.place⟩, registration.delimiter⟩, fault, hregister⟩⟩
        have hkind : fault.kind = .registrationConflict := kind_of_refused hregister
        exact hkind
      | ok _ next =>
        rw [bind_of_ok (register_of_ok hfull hregister), List.filterMap_cons_some hcall]
        rcases ih next with ⟨after, hrun, hgrants⟩ |
          ⟨done, refused, rest, fault, between, after, rfl, hrun, hkind, hgrants, htouched⟩
        · exact .inl ⟨after, hrun, .cons hregister hgrants⟩
        · refine .inr ⟨registration :: done, refused, rest, fault, between, after, rfl, hrun, hkind, ?_,
            htouched⟩
          rw [List.filterMap_cons_some hcall]
          exact .cons hregister hgrants

/-- Once all children are there, only the schema's own registrations make calls, and they come last. -/
theorem checking_cases (schema : Schema) :
    (∃ fault left, checking schema (node, symbols) = .error fault (left, symbols)) ∨
    (∃ (left : Node) (after : Symbols),
      checking schema (node, symbols) = .ok () ({ left with phase := .closed }, after) ∧
      Grants symbols (schema.registrations.filterMap left.call?) after) ∨
    ∃ left done refused rest fault between after, schema.registrations = done ++ refused :: rest ∧
      checking schema (node, symbols) = .error fault (left, after) ∧
      fault.kind = .registrationConflict ∧ Grants symbols (done.filterMap left.call?) between ∧
      Touched between after := by
  have hquiet : Quiet (fun _ => True)
      (schema.completions.forM complete >>= fun _ => schema.checks.forM Closing.check)
      (fun _ _ => True) (fun _ => True) := by
    refine .bind (R := fun _ _ => True) (.forM (I := fun _ _ => True) _ fun _ completion _ => ?_)
      fun _ => .forM (I := fun _ _ => True) _ fun _ check _ => ?_
    · exact quiet_complete completion (fun _ _ _ _ => trivial) fun _ _ _ _ _ => trivial
    · exact (quiet_check check fun _ _ => trivial).conseq (fun _ _ => trivial) fun _ _ _ => trivial
  have hsplit : checking schema =
      ((schema.completions.forM complete >>= fun _ => schema.checks.forM Closing.check) >>= fun _ =>
        schema.registrations.forM Closing.register >>= fun _ =>
          modifyNode fun node => { node with phase := .closed }) := by
    simp only [checking, bind_assoc]
  rcases hquiet node trivial with ⟨_, left, -, hrun⟩ | ⟨fault, left, -, hrun⟩
  · rw [hsplit, bind_of_ok (hrun symbols)]
    rcases forM_register_cases left symbols schema.registrations with ⟨after, hregister, hgrants⟩ |
      ⟨done, refused, rest, fault, between, after, hregistrations, hregister, hkind, hgrants, htouched⟩
    · rw [bind_of_ok hregister]
      exact .inr (.inl ⟨left, after, rfl, hgrants⟩)
    · rw [bind_of_error hregister]
      exact .inr (.inr ⟨left, done, refused, rest, fault, between, after, hregistrations, rfl, hkind, hgrants,
        htouched⟩)
  · rw [hsplit, bind_of_error (hrun symbols)]
    exact .inl ⟨fault, left, rfl⟩

theorem stems_of_call? {left : Node} {registrations : List Registration} :
    ∀ call ∈ registrations.filterMap left.call?, Stems (· ∈ registrations) call := by
  intro call hcall
  obtain ⟨registration, hmem, hcall⟩ := List.mem_filterMap.mp hcall
  obtain ⟨name, -, rfl⟩ := Option.map_eq_some_iff.mp hcall
  exact ⟨registration, hmem, rfl, rfl⟩

theorem leaves_checking (schema : Schema) :
    Leaves (· ∈ schema.registrations) symbols (checking schema (node, symbols)) := by
  rcases checking_cases node symbols schema with ⟨fault, left, hrun⟩ | ⟨left, after, hrun, hgrants⟩ |
    ⟨left, done, refused, rest, fault, between, after, hregistrations, hrun, -, hgrants, htouched⟩
  · rw [hrun]
    exact .same_error fault left
  · rw [hrun]
    exact .ok stems_of_call? hgrants
  · rw [hrun]
    refine .error (fun call hcall => ?_) hgrants htouched
    obtain ⟨registration, hmem, hmade⟩ := stems_of_call? call hcall
    exact ⟨registration, hregistrations ▸ List.mem_append_left _ hmem, hmade⟩

end registering

def filling (fill : Tag → List String → Closing Unit) (schema : Schema) (words : List String) :
    Closing Unit := do
  fillImplicit fill (← assign schema.properties words)
  schema.tags.forM (fillDefault fill)

section filling

variable {source : Registration → Prop} {fill : Tag → List String → Closing Unit} {schema : Schema}
  {node : Node}

theorem run_eq_filling (fill : Tag → List String → Closing Unit) (hopened : node.phase = .opened)
    (symbols : Symbols) :
    run fill schema (node, symbols) =
      (filling fill schema node.words >>= fun _ => checking schema) ({ node with words := [] }, symbols) := by
  rw [run_eq_assign fill hopened]
  simp only [filling, bind_assoc]
  rfl

theorem quiet_assign_signature (signature : Signature) (properties : List Property) (words : List String) :
    Quiet (·.signature = signature) (assign properties words) (fun _ node => node.signature = signature)
      (fun _ => True) :=
  quiet_assign_of properties words (fun _ _ _ _ _ hnode => hnode) fun _ _ _ _ => trivial

def FillLeaves (source : Registration → Prop) (schema : Schema) (fill : Tag → List String → Closing Unit) :
    Prop :=
  ∀ tag ∈ schema.tags, tag.implicit ∨ tag.default.isSome → ∀ words node symbols,
    Leaves source symbols (fill tag words (node, symbols))

variable (hfill : FillLeaves source schema fill)
include hfill

theorem leaves_fillImplicit (hsignature : node.signature = schema.toSignature) (words : List String)
    (symbols : Symbols) : Leaves source symbols (fillImplicit fill words (node, symbols)) := by
  rcases fillImplicit_cases node words symbols with hnothing | ⟨fault, hfails⟩ | ⟨tag, htag, himplicit, hfills⟩
  · rw [hnothing]
    exact .same_ok () node
  · rw [hfails]
    exact .same_error fault node
  · rw [hsignature] at htag
    rw [hfills]
    exact hfill tag htag (.inl himplicit) words node symbols

theorem leaves_fillDefault {tag : Tag} (hmem : tag ∈ schema.tags) (node : Node) (symbols : Symbols) :
    Leaves source symbols (fillDefault fill tag (node, symbols)) := by
  rcases fillDefault_cases tag node symbols with hnothing | ⟨words, hdefault, -, hfills⟩
  · rw [hnothing]
    exact .same_ok () node
  · rw [hfills]
    exact hfill tag hmem (.inr hdefault) words node symbols

theorem leaves_filling (hsignature : node.signature = schema.toSignature) (words : List String)
    (symbols : Symbols) : Leaves source symbols (filling fill schema words (node, symbols)) := by
  have hassign := quiet_assign_signature schema.toSignature schema.properties words
  refine .bind (.of_quiet hassign hsignature symbols) fun rest between registered hrun => ?_
  have hbetween : between.signature = schema.toSignature := by
    rcases hassign node hsignature with ⟨_, _, hafter, hok⟩ | ⟨_, _, -, herror⟩
    · cases (hok symbols).symm.trans hrun
      exact hafter
    · cases (herror symbols).symm.trans hrun
  refine (leaves_fillImplicit hfill hbetween rest registered).bind fun _ filled later _ => ?_
  exact .forM (fun tag htag => leaves_fillDefault hfill htag) filled later

end filling

section closing

variable {grammar : Grammar} {schema : Schema}

/-- The registrations of the schemas that closing a node of the schema may fill in, directly or through
others. -/
def FilledBelow (grammar : Grammar) (schema : Schema) (registration : Registration) : Prop :=
  ∃ inner, Relation.TransGen grammar.FillsIn schema inner ∧ registration ∈ inner.registrations

theorem leaves_fillWith {closeChild : Schema → Closing Unit}
    (hclose : ∀ inner, grammar.FillsIn schema inner → ∀ node symbols, node.signature = inner.toSignature →
      Leaves (fun registration => registration ∈ inner.registrations ∨ FilledBelow grammar inner registration)
        symbols (closeChild inner (node, symbols))) :
    FillLeaves (FilledBelow grammar schema) schema (fillWith closeChild grammar) := by
  intro tag hmem hfilled words node symbols
  unfold fillWith
  cases hname : tag.schema with
  | none => exact .same_ok () node
  | some name =>
    cases hinner : grammar.find? name with
    | none =>
      simp only [hinner]
      exact .same_error _ node
    | some inner =>
      simp only [hinner]
      have hfills : grammar.FillsIn schema inner :=
        ⟨tag, hmem, hfilled, by rw [hname, Option.bind_some, hinner]⟩
      have hsource : ∀ registration, registration ∈ inner.registrations ∨
          FilledBelow grammar inner registration → FilledBelow grammar schema registration := by
        rintro registration (hown | ⟨below, hbelow, hregistration⟩)
        · exact ⟨inner, .single hfills, hown⟩
        · exact ⟨below, .head hfills hbelow, hregistration⟩
      have hchild := (hclose inner hfills
        { Node.start tag.key inner.toSignature node.place with words } symbols rfl).mono hsource
      generalize closeChild inner _ = result at hchild
      cases hchild with
      | error hcalls hgrants htouched => exact .error hcalls hgrants htouched
      | @ok calls _ child after hcalls hgrants =>
        dsimp only
        cases node.adopt child with
        | error fault => exact .error hcalls hgrants (.inl rfl)
        | ok adopted => exact .ok hcalls hgrants

theorem leaves_run {fill : Tag → List String → Closing Unit}
    (hfill : FillLeaves (FilledBelow grammar schema) schema fill) {node : Node}
    (hsignature : node.signature = schema.toSignature) (symbols : Symbols) :
    Leaves (fun registration => registration ∈ schema.registrations ∨ FilledBelow grammar schema registration)
      symbols (run fill schema (node, symbols)) := by
  by_cases hopened : node.phase = .opened
  · rw [run_eq_filling fill hopened]
    have hstarted : ({ node with words := [] } : Node).signature = schema.toSignature := hsignature
    have hfilled := leaves_filling hfill hstarted node.words symbols
    refine (hfilled.mono fun _ => .inr).bind fun _ filled registered _ => ?_
    exact (leaves_checking filled registered schema).mono fun _ => .inl
  · rw [run_of_not_opened hopened]
    exact .same_ok () node

theorem leaves_within (grammar : Grammar) (depth : Nat) (schema : Schema) (node : Node) (symbols : Symbols)
    (hsignature : node.signature = schema.toSignature) :
    Leaves (fun registration => registration ∈ schema.registrations ∨ FilledBelow grammar schema registration)
      symbols (within grammar depth schema (node, symbols)) := by
  induction depth generalizing schema node symbols with
  | zero => exact leaves_run (fun _ _ _ _ node _ => .same_ok () node) hsignature symbols
  | succ depth ih => exact leaves_run (leaves_fillWith fun inner _ => ih inner) hsignature symbols

/-- Where closing fails, the calls of the children that were filled in have been granted, and if one of the
schema's own registrations is refused, those before it. -/
theorem close_error_cases {node left : Node} {symbols after : Symbols} {fault : Fault}
    (hsignature : node.signature = schema.toSignature)
    (h : Node.close grammar schema (node, symbols) = .error fault (left, after)) :
    ∃ filled own between, Grants symbols (filled ++ own) between ∧ Touched between after ∧
      (∀ call ∈ filled, Stems (FilledBelow grammar schema) call) ∧
      (own ≠ [] → ∃ done refused rest, schema.registrations = done ++ refused :: rest ∧
        own = done.filterMap left.call? ∧ fault.kind = .registrationConflict) := by
  have hrun : run (filler grammar) schema (node, symbols) = .error fault (left, after) := h
  have hopened : node.phase = .opened := by
    by_contra hopened
    rw [run_of_not_opened hopened] at hrun
    cases hrun
  rw [run_eq_filling _ hopened] at hrun
  have hfill : FillLeaves (FilledBelow grammar schema) schema (filler grammar) :=
    leaves_fillWith fun inner _ => leaves_within grammar _ inner
  have hstarted : ({ node with words := [] } : Node).signature = schema.toSignature := hsignature
  have hfilled := leaves_filling hfill hstarted node.words symbols
  generalize hfilling : filling (filler grammar) schema node.words ({ node with words := [] }, symbols) =
    result at hfilled
  cases hfilled with
  | @error filled _ _ between _ hcalls hgrants htouched =>
    rw [bind_of_error hfilling] at hrun
    cases hrun
    exact ⟨filled, [], between, by rwa [List.append_nil], htouched, hcalls, fun hown => absurd rfl hown⟩
  | @ok filled _ inner between hcalls hgrants =>
    rw [bind_of_ok hfilling] at hrun
    rcases checking_cases inner between schema with ⟨_, _, hcheck⟩ | ⟨_, _, hcheck, -⟩ |
      ⟨_, done, refused, rest, _, later, _, hregistrations, hcheck, hkind, hown, htouched⟩
    · cases hcheck.symm.trans hrun
      exact ⟨filled, [], after, by rwa [List.append_nil], .inl rfl, hcalls, fun hown => absurd rfl hown⟩
    · cases hcheck.symm.trans hrun
    · cases hcheck.symm.trans hrun
      exact ⟨filled, _, later, hgrants.append hown, htouched, hcalls,
        fun _ => ⟨done, refused, rest, hregistrations, rfl, hkind⟩⟩

end closing

end Closing

namespace Node
open Closing

end Node
end TagSchema
