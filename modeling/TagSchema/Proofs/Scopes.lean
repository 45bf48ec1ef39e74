import TagSchema.Proofs.Listing
import TagSchema.Proofs.Settling
import TagSchema.Scope

/-! Closing a scope of the language. What becomes of the node is settled before the symbols come
into play; then a top-level node registers its name, and any other node registers nothing. -/
namespace TagSchema
open Grammar Node Closing

theorem Property.Admits.text {property : Property} {value : Datum} (admits : property.Admits value)
    (h : property.conversions = []) : ∃ content, value = .text content := by
  obtain ⟨content, hproduced⟩ := admits.produced
  rw [h] at hproduced
  exact ⟨content, (Except.ok.inj hproduced).symm⟩

theorem Node.Conforms.registered_name {node : Node} (conforms : node.Conforms)
    (h : node.signature.name.space?.isSome) : ∃ full, node.values .name = some (.text full) := by
  have hname := Standard.name_property _ h
  rw [← conforms.standard] at hname
  obtain ⟨value, hvalue⟩ := Option.isSome_iff_exists.mp (conforms.required _ hname rfl)
  obtain ⟨full, rfl⟩ := (conforms.admits hname hvalue).text rfl
  exact ⟨full, hvalue⟩

section register

variable {node : Node} {registration : Registration} {full : String} {symbols after : Symbols}

theorem Closing.register_of_ok (hfull : (node.values registration.key).bind (·.symbol?) = some full)
    (h : Symbols.register full registration.space node.place registration.delimiter symbols =
      .ok () after) :
    register registration (node, symbols) = .ok () (node, after) := by
  simp only [register, hfull, h]

theorem Closing.register_of_error {fault : Fault}
    (hfull : (node.values registration.key).bind (·.symbol?) = some full)
    (h : Symbols.register full registration.space node.place registration.delimiter symbols =
      .error fault after) :
    register registration (node, symbols) = .error (fault.inScope node.tag) (node, after) := by
  simp only [register, hfull, h]

end register

namespace Scope

structure Open (scope : Scope) (name : SchemaName) : Prop where
  schema : scope.schema = Standard.schema name
  signature : scope.node.signature = Standard.signature name
  gathering : scope.node.Gathering

variable {scope : Scope} {name : SchemaName}

def Closes (scope : Scope) (node : Node) : Prop :=
  ∀ symbols, scope.close .standard symbols = .ok () (⟨scope.schema, node⟩, symbols)

def Fails (scope : Scope) (fault : Fault) : Prop :=
  ∀ symbols, ∃ lost, scope.close .standard symbols = .error fault (lost, symbols)

structure Registers (scope : Scope) (node : Node) (full : String) (space : Namespace) : Prop where
  accepted : ∀ symbols after,
    Symbols.register full space node.place space.delimiter symbols = .ok () after →
      scope.close .standard symbols = .ok () (⟨scope.schema, node⟩, after)
  refused : ∀ symbols fault after,
    Symbols.register full space node.place space.delimiter symbols = .error fault after →
      ∃ lost, scope.close .standard symbols = .error (fault.inScope node.tag) (lost, after)

theorem close_unregistered (opened : scope.Open name) (h : name.space? = none) :
    (∃ node, Closed scope.node node ∧ scope.Closes node) ∨
      ∃ fault, fault.Flaw scope.node.place ∧ scope.Fails fault := by
  have hregistrations : (Standard.schema name).registrations = [] := by
    rw [Standard.registrations_schema, h]
    rfl
  have hquiet := quiet_run opened.signature opened.gathering (fills_fillWith scope.node 12)
    hregistrations scope.node rfl
  rw [← opened.schema] at hquiet
  rcases hquiet with ⟨_, node, hclosed, hrun⟩ | ⟨fault, after, hflaw, hrun⟩
  · refine .inl ⟨node, hclosed, fun symbols => ?_⟩
    have hclose : Node.close .standard scope.schema (scope.node, symbols) = .ok () (node, symbols) :=
      hrun symbols
    rw [close, hclose]
  · refine .inr ⟨fault, hflaw, fun symbols => ⟨⟨scope.schema, after⟩, ?_⟩⟩
    have hclose : Node.close .standard scope.schema (scope.node, symbols) =
        .error fault (after, symbols) := hrun symbols
    rw [close, hclose]

theorem close_registered (opened : scope.Open name) {space : Namespace}
    (h : name.space? = some space) :
    (∃ node full, Closed scope.node node ∧ node.text? .name = some full ∧
      scope.Registers node full space) ∨
      ∃ fault, fault.Flaw scope.node.place ∧ scope.Fails fault := by
  have hregistrations : (Standard.schema name).registrations = [⟨.name, space, space.delimiter⟩] := by
    rw [Standard.registrations_schema, h]
    rfl
  have hclose (symbols : Symbols) :
      Node.close .standard scope.schema (scope.node, symbols) = (do
        settle (fillWith (within .standard 12) .standard) (Standard.schema name)
        register ⟨.name, space, space.delimiter⟩
        modifyNode fun node => { node with phase := .closed } : Closing Unit)
          (scope.node, symbols) := by
    have hrun := run_of_opened (fillWith (within .standard 12) .standard) (Standard.schema name)
      opened.gathering.opened symbols
    simp only [hregistrations, List.forM_eq_forM, List.forM_cons, List.forM_nil, bind_assoc,
      pure_bind] at hrun
    rw [opened.schema]
    exact hrun
  -- Settling does not see the symbols, so all of them meet the same node and the same name.
  rcases quiet_settle opened.signature opened.gathering (fills_fillWith scope.node 12)
      scope.node rfl with ⟨_, node, ready, hsettle⟩ | ⟨fault, after, hflaw, hsettle⟩
  · obtain ⟨full, hfull⟩ := ready.settled.self.conforms.registered_name (by
      rw [ready.signature, opened.signature, Standard.name_signature, h]
      rfl)
    have hvalue : node.values .name = some (.text full) := hfull
    have hafter (symbols : Symbols) :
        Node.close .standard scope.schema (scope.node, symbols) =
          (do
            register ⟨.name, space, space.delimiter⟩
            modifyNode fun node => { node with phase := .closed } : Closing Unit)
          (node, symbols) := by
      rw [hclose, bind_of_ok (hsettle symbols)]
    refine .inl ⟨{ node with phase := .closed }, full, ready, ?_, ?_, ?_⟩
    · simp [text?, hvalue, Datum.text?]
    · intro symbols after haccepted
      have hregister : register ⟨.name, space, space.delimiter⟩ (node, symbols) =
          .ok () (node, after) :=
        register_of_ok (by rw [hvalue]; rfl) haccepted
      rw [close, hafter, bind_of_ok hregister]
      rfl
    · intro symbols fault after hrefused
      refine ⟨⟨scope.schema, node⟩, ?_⟩
      have hregister : register ⟨.name, space, space.delimiter⟩ (node, symbols) =
          .error (fault.inScope node.tag) (node, after) :=
        register_of_error (by rw [hvalue]; rfl) hrefused
      rw [close, hafter, bind_of_error hregister]
  · refine .inr ⟨fault, hflaw, fun symbols => ⟨⟨scope.schema, after⟩, ?_⟩⟩
    rw [close, hclose, bind_of_error (hsettle symbols)]

end Scope
end TagSchema
