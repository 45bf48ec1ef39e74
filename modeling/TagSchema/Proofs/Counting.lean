import TagSchema.Proofs.Numbering
import TagSchema.Proofs.Shorthand

/-! Closing an enumeration numbers its constants. The numbers count on without wrapping around, from zero or
from the last one that was given, and closing fails just where a number is needed behind the greatest one. -/
namespace TagSchema
open Grammar Draft

namespace Draft

/-- Some constant has no number of its own and comes right behind one that has the greatest number. -/
def Overflows (owns : List (Option Int64)) : Prop :=
  ∃ i, (numbers 0 owns)[i]? = some Int64.maxValue.toInt ∧ owns[i + 1]? = some none

theorem exists_lt_numbers_iff {start : Int} (hstart : start ≤ Int64.maxValue.toInt + 1)
    (owns : List (Option Int64)) :
    (∃ number ∈ numbers start owns, Int64.maxValue.toInt < number) ↔
      start = Int64.maxValue.toInt + 1 ∧ owns[0]? = some none ∨
        ∃ i, (numbers start owns)[i]? = some Int64.maxValue.toInt ∧ owns[i + 1]? = some none := by
  induction owns generalizing start with
  | nil => simp [numbers]
  | cons own owns ih =>
    by_cases hbeyond : Int64.maxValue.toInt < own.elim start (·.toInt)
    · have hown : own = none := by
        cases own with
        | none => rfl
        | some number =>
          have hupper := number.toInt_lt
          rw [Option.elim_some, Int64.toInt_maxValue] at hbeyond
          omega
      subst hown
      have hfirst : Int64.maxValue.toInt < start := hbeyond
      refine iff_of_true ⟨start, List.mem_cons_self, hfirst⟩ (.inl ⟨by omega, rfl⟩)
    · have hnext : own.elim start (·.toInt) + 1 ≤ Int64.maxValue.toInt + 1 := by omega
      have hhead : ¬(start = Int64.maxValue.toInt + 1 ∧ (own :: owns)[0]? = some none) := by
        rintro ⟨rfl, hnone⟩
        cases Option.some.inj hnone
        exact hbeyond (Int.lt_succ _)
      simp only [numbers, List.exists_mem_cons_iff, hbeyond, false_or, hhead]
      rw [ih hnext, ← Nat.or_exists_add_one (p := fun i => (_ :: numbers _ owns)[i]? = _ ∧ _)]
      simp only [List.getElem?_cons_zero, List.getElem?_cons_succ, Option.some.injEq]
      refine or_congr_left (and_congr_left fun _ => ?_)
      omega

theorem overflows_iff (owns : List (Option Int64)) :
    Overflows owns ↔ ∃ number ∈ numbers 0 owns, Int64.maxValue.toInt < number := by
  have hstart : (0 : Int) ≤ Int64.maxValue.toInt + 1 := by decide
  have hzero : (0 : Int) ≠ Int64.maxValue.toInt + 1 := by decide
  rw [exists_lt_numbers_iff hstart, or_iff_right fun h => hzero h.1]
  rfl

theorem minValue_le_numbers {start : Int} (hstart : Int64.minValue.toInt ≤ start) (owns : List (Option Int64)) :
    ∀ number ∈ numbers start owns, Int64.minValue.toInt ≤ number := by
  induction owns generalizing start with
  | nil => exact nofun
  | cons own owns ih =>
    have hown : Int64.minValue.toInt ≤ own.elim start (·.toInt) := by
      cases own with
      | none => exact hstart
      | some number =>
        rw [Int64.toInt_minValue]
        exact number.le_toInt
    rw [numbers, List.forall_mem_cons]
    exact ⟨hown, ih (by omega)⟩

theorem numberChildren_of_exceeds {nodes : List Node} {next : Option Int64} {start : Int}
    (hstart : StartsAt next start)
    (h : ∃ number ∈ numbers start ((nodes.filter (·.tag = .constant)).map own),
      Int64.maxValue.toInt < number) :
    ∃ after constant, Standard.numberChildren next nodes = (after, some (complaint constant)) ∧
      (constant, Int64.maxValue.toInt + 1) ∈
        (nodes.filter (·.tag = .constant)).zip
          (numbers start ((nodes.filter (·.tag = .constant)).map own)) := by
  induction nodes generalizing next start with
  | nil =>
    obtain ⟨number, hnumber, -⟩ := h
    cases hnumber
  | cons node nodes ih =>
    by_cases hconstant : node.tag = .constant
    · simp only [List.filter_cons, hconstant, decide_true, if_true, List.map_cons, numbers,
        List.exists_mem_cons_iff] at h
      simp only [List.filter_cons, hconstant, decide_true, if_true, List.map_cons, numbers,
        List.zip_cons_cons, List.mem_cons]
      -- The rest counts on from the number of this constant, which is in range.
      have hcount (number : Int64) (hnumber : (own node).elim start (·.toInt) = number.toInt) :
          ∃ after constant, Standard.numberChildren (Standard.successor? number) nodes =
              (after, some (complaint constant)) ∧
            (constant, Int64.maxValue.toInt + 1) ∈ (nodes.filter (·.tag = .constant)).zip
              (numbers ((own node).elim start (·.toInt) + 1)
                ((nodes.filter (·.tag = .constant)).map own)) := by
        have hupper := number.toInt_lt
        have hgreatest := Int64.toInt_maxValue
        rw [hnumber] at h ⊢
        exact ih (startsAt_successor number) (h.resolve_left (by omega))
      cases hown : own node with
      | some number =>
        obtain ⟨after, constant, hafter, hmem⟩ := hcount number (by rw [hown]; rfl)
        rw [hown] at hmem
        exact ⟨node :: after, constant, by rw [numberChildren_of_own nodes hconstant hown, hafter], .inr hmem⟩
      | none =>
        cases next with
        | none =>
          have hbeyond : Int64.maxValue.toInt + 1 = start := hstart
          exact ⟨node :: nodes, node, numberChildren_of_last nodes hconstant hown, .inl (by rw [← hbeyond]; rfl)⟩
        | some number =>
          obtain ⟨after, constant, hafter, hmem⟩ := hcount number (by rw [hown]; exact hstart.symm)
          rw [hown] at hmem
          exact ⟨node.set .value (.integer number) :: after, constant,
            by rw [numberChildren_of_next nodes hconstant hown, hafter], .inr hmem⟩
    · simp only [List.filter_cons, hconstant, decide_false, Bool.false_eq_true, if_false] at h ⊢
      obtain ⟨after, constant, hafter, hmem⟩ := ih hstart h
      exact ⟨node :: after, constant, by rw [numberChildren_of_other nodes hconstant, hafter], hmem⟩

end Draft

namespace Node
open Closing

def described (node : Node) (name : String) (about : List String) : Node :=
  let named := ({ node with words := [] } : Node).set .name (.text name)
  if about = [] then named else named.attach (leaf node.place .description .string about)

structure Bears (constant : Node) (number : Int64) (after : Node) : Prop where
  value : after.values .value = some (.integer number)
  values : ∀ key, key ≠ .value → after.values key = constant.values key
  childrenOf : ∀ key, key ≠ .value → after.childrenOf key = constant.childrenOf key
  tag : after.tag = constant.tag
  signature : after.signature = constant.signature
  place : after.place = constant.place
  words : after.words = constant.words
  phase : after.phase = constant.phase

theorem bears_withNumber {constant : Node} {number : Int64}
    (h : ∀ explicit, own constant = some explicit → explicit = number) :
    Bears constant number (withNumber constant number.toInt) := by
  unfold withNumber
  cases hown : own constant with
  | some explicit =>
    obtain rfl := h explicit hown
    have hvalue : constant.values .value = some (.integer explicit) := by
      obtain ⟨value, hvalue, hinteger⟩ := Option.bind_eq_some_iff.mp hown
      cases value with
      | integer held =>
        cases hinteger
        exact hvalue
      | text _ | boolean _ | list _ => cases hinteger
    exact ⟨hvalue, fun _ _ => rfl, fun _ _ => rfl, rfl, rfl, rfl, rfl, rfl⟩
  | none =>
    rw [Int64.ofInt_toInt]
    refine ⟨by simp, fun key hkey => ?_, fun key hkey => ?_, rfl, rfl, rfl, rfl, rfl⟩
    · simp [hkey]
    · simp [hkey]

theorem exists_counts (constants : List Node) {start : Int} (hstart : Int64.minValue.toInt ≤ start)
    (hbound : ∀ number ∈ numbers start (constants.map own), number ≤ Int64.maxValue.toInt) :
    ∃ counts : List Int64, counts.map (·.toInt) = numbers start (constants.map own) ∧
      List.Forall₂ (fun given after => Bears given.1 given.2 after) (constants.zip counts)
        (constants.zipWith withNumber (numbers start (constants.map own))) := by
  induction constants generalizing start with
  | nil => exact ⟨[], rfl, .nil⟩
  | cons constant constants ih =>
    have hleast := minValue_le_numbers hstart ((constant :: constants).map own)
    simp only [List.map_cons, numbers, List.forall_mem_cons] at hleast hbound
    obtain ⟨number, hnumber⟩ : ∃ number : Int64, number.toInt = (own constant).elim start (·.toInt) := by
      refine ⟨.ofInt ((own constant).elim start (·.toInt)), Int64.toInt_ofInt_of_le ?_ ?_⟩
      · exact Int64.toInt_minValue ▸ hleast.1
      · have hupper := hbound.1
        rw [Int64.toInt_maxValue] at hupper
        omega
    obtain ⟨counts, hcounts, hbears⟩ := ih (by omega) hbound.2
    refine ⟨number :: counts, ?_, ?_⟩
    · simp only [List.map_cons, numbers, hcounts, hnumber]
    · simp only [List.map_cons, numbers, List.zip_cons_cons, List.zipWith_cons_cons]
      refine .cons ?_ hbears
      rw [← hnumber]
      refine bears_withNumber fun explicit hexplicit => ?_
      rw [hexplicit, Option.elim_some] at hnumber
      exact (Int64.toInt_inj.mp hnumber).symm

theorem numberInOrder_cases (node : Node) :
    let constants := node.childrenOf .constant
    (Overflows (constants.map own) ∧ ∃ after constant,
      Standard.numberInOrder node = .error (complaint constant) { node with children := after } ∧
        (constant, Int64.maxValue.toInt + 1) ∈ constants.zip (numbers 0 (constants.map own))) ∨
    ¬ Overflows (constants.map own) ∧ ∃ after, Counted 0 node.children after ∧
      Standard.numberInOrder node = .ok () { node with children := after } := by
  intro constants
  have hstart : StartsAt (some 0) 0 := rfl
  unfold Standard.numberInOrder
  by_cases hoverflows : Overflows (constants.map own)
  · obtain ⟨after, constant, hafter, hmem⟩ :=
      numberChildren_of_exceeds hstart ((overflows_iff _).mp hoverflows)
    rw [hafter]
    exact .inl ⟨hoverflows, after, constant, rfl, hmem⟩
  · have hbound : ∀ number ∈ numbers 0 (constants.map own), number ≤ Int64.maxValue.toInt := by
      rw [overflows_iff] at hoverflows
      simpa using hoverflows
    obtain ⟨after, hafter, counted⟩ := counted_numberChildren hstart hbound
    rw [hafter]
    exact .inr ⟨hoverflows, after, counted, rfl⟩

section closing

variable {node : Node} {name : String} {about : List String}

theorem childrenOf_described (node : Node) (name : String) (about : List String) {key : Keyword}
    (hkey : key ≠ .name) :
    (node.described name about).childrenOf key =
      node.childrenOf key ++ if key = .description ∧ about ≠ [] then
        [leaf node.place .description .string about] else [] := by
  have hnamed : (({ node with words := [] } : Node).set .name (.text name)).childrenOf key =
      node.childrenOf key := by
    rw [childrenOf_set, if_neg hkey]
    rfl
  unfold described
  by_cases habout : about = []
  · simp only [habout, if_true, hnamed, ne_eq, not_true, and_false, if_false, List.append_nil]
  · simp only [habout, if_false, childrenOf_attach, hnamed, ne_eq, not_false_eq_true, and_true]
    split <;> simp_all [leaf]

theorem values_described (node : Node) (name : String) (about : List String) :
    (node.described name about).values .name = some (.text name) := by
  unfold described
  split <;> rfl

theorem close_eq_checking (hsignature : node.signature = Standard.signature .enumeration)
    (hopened : node.phase = .opened) (hwords : node.words = name :: about)
    (hdescription : about ≠ [] → node.childrenOf .description = []) (symbols : Symbols) :
    close .standard (Standard.schema .enumeration) (node, symbols) =
      checking (Standard.schema .enumeration) (node.described name about, symbols) := by
  have hslices : Slices (Standard.schema .enumeration).properties node.words
      [⟨Standard.name, [name], .text name⟩] about := by
    rw [hwords]
    exact .taken (.fixed [name] about rfl) (makes_text Standard.name rfl rfl name) .done
  have hdefaults (between : Node) :
      concluding (filler .standard) (Standard.schema .enumeration) (between, symbols) =
        checking (Standard.schema .enumeration) (between, symbols) := by
    have hnone : ∀ tag ∈ (Standard.schema .enumeration).tags, tag.default = none := by decide
    exact bind_of_ok (forM_eq_ok fun tag htag => fillDefault_of_given _ between (.inl (hnone tag htag)) symbols)
  unfold described
  by_cases habout : about = []
  · rw [if_pos habout, ← hdefaults, close_of_slices_nil hopened (habout ▸ hslices)]
    rfl
  · have hmem : Standard.describing ∈ (Standard.signature .enumeration).tags := by decide
    have hnodup : (Standard.schema .enumeration).keys.Nodup := by decide
    obtain ⟨himplicit, -⟩ := Standard.of_describing .enumeration hmem
    have hleaf := fillsLeaf_filler .enumeration Standard.describing hmem (.inl rfl) .string rfl about
      (suited_string habout) (({ node with words := [] } : Node).filling [⟨Standard.name, [name], .text name⟩])
      hsignature symbols
    rw [if_neg habout, ← hdefaults, close_of_slices hnodup hsignature hopened hslices habout himplicit
      (hdescription habout), bind_of_ok hleaf]
    rfl

theorem register_of_free {symbols : Symbols} {space : Namespace}
    (hfree : (symbols.table space).find? ((symbols.table space).split name) = none) (place : Place) :
    Symbols.register name space place none symbols =
      .ok () (symbols.setTable space ((symbols.table space).add name place)) := by
  have hadopted : (symbols.table space).adoptDelimiter none = symbols.table space := by
    rw [Symbols.Table.adoptDelimiter, Option.or_none]
  simp only [Symbols.register, hadopted, hfree]

theorem checking_of_refused {before left : Node} {text : String}
    (h : Standard.numberInOrder before = .error text left) (symbols : Symbols) :
    checking (Standard.schema .enumeration) (before, symbols) =
      .error (left.fault (.incomplete text)) (left, symbols) := by
  have hcompletions : (Standard.schema .enumeration).completions = [Standard.numberInOrder] := rfl
  have hcomplete : complete Standard.numberInOrder (before, symbols) =
      .error (left.fault (.incomplete text)) (left, symbols) := by
    simp only [complete, h]
  have hloop : (Standard.schema .enumeration).completions.forM complete (before, symbols) =
      .error (left.fault (.incomplete text)) (left, symbols) := by
    rw [hcompletions]
    exact bind_of_error hcomplete
  exact bind_of_error hloop

theorem checking_of_numbered {before after : Node} (h : Standard.numberInOrder before = .ok () after)
    (hname : after.values .name = some (.text name))
    (hdescribed : (after.childrenOf .description).length ≤ 1) {symbols registered : Symbols}
    (hregister : Symbols.register name .enumerations after.place none symbols = .ok () registered) :
    checking (Standard.schema .enumeration) (before, symbols) =
      .ok () ({ after with phase := .closed }, registered) := by
  have hcomplete : (Standard.schema .enumeration).completions.forM complete (before, symbols) =
      .ok () (after, symbols) := by
    have hcompletions : (Standard.schema .enumeration).completions = [Standard.numberInOrder] := rfl
    have hone : complete Standard.numberInOrder (before, symbols) = .ok () (after, symbols) := by
      simp only [complete, h]
    rw [hcompletions]
    exact bind_of_ok hone
  have hchecks : (Standard.schema .enumeration).checks.forM check (after, symbols) = .ok () (after, symbols) := by
    have hall : (Standard.schema .enumeration).checks = [.requiredProperty .name, .singularTag .description] :=
      rfl
    refine forM_eq_ok fun check hcheck => ?_
    have haccepts : check.accepts after = true := by
      rw [hall] at hcheck
      rcases List.mem_cons.mp hcheck with rfl | hlast
      · simp [NodeCheck.accepts, holds, hname]
      · cases List.mem_singleton.mp hlast
        simpa [NodeCheck.accepts] using hdescribed
    change (if check.accepts after = true then _ else _ : Closing Unit) (after, symbols) = _
    rw [if_pos haccepts]
    rfl
  have hregistered : (Standard.schema .enumeration).registrations.forM register (after, symbols) =
      .ok () (after, registered) := by
    have hall : (Standard.schema .enumeration).registrations = [⟨.name, .enumerations, none⟩] := rfl
    rw [hall]
    exact bind_of_ok (register_of_ok (by rw [hname]; rfl) hregister)
  rw [checking, bind_of_ok hcomplete, bind_of_ok hchecks, bind_of_ok hregistered]
  rfl

/-- Closing an enumeration whose name is free gives its constants the numbers that counting gives them, in
their order and with nothing else about them changed. It fails just where a constant without a number of its
own comes right behind one that has the greatest number. -/
theorem close_enumeration (hsignature : node.signature = Standard.signature .enumeration)
    (hopened : node.phase = .opened) (hwords : node.words = name :: about)
    (hsingle : (node.childrenOf .description).length ≤ 1)
    (hdescription : about ≠ [] → node.childrenOf .description = []) (symbols : Symbols)
    (hfree : (symbols.table .enumerations).find? ((symbols.table .enumerations).split name) = none) :
    let constants := node.childrenOf .constant
    let owns := constants.map own
    ((∃ fault left constant, close .standard (Standard.schema .enumeration) (node, symbols) =
          .error fault (left, symbols) ∧ fault.kind = .propertyValue ∧
        fault.message = complaint constant ∧
        (constant, Int64.maxValue.toInt + 1) ∈ constants.zip (numbers 0 owns)) ↔ Overflows owns) ∧
    (¬ Overflows owns → ∃ closed registered counts,
      close .standard (Standard.schema .enumeration) (node, symbols) = .ok () (closed, registered) ∧
        counts.map Int64.toInt = numbers 0 owns ∧
        List.Forall₂ (fun given after => Bears given.1 given.2 after) (constants.zip counts)
          (closed.childrenOf .constant) ∧
        closed.values .name = some (.text name) ∧
        closed.childrenOf .description = node.childrenOf .description ++
          if about = [] then [] else [leaf node.place .description .string about]) := by
  intro constants owns
  have hclose := close_eq_checking hsignature hopened hwords hdescription symbols
  have hconstants : (node.described name about).childrenOf .constant = constants := by
    rw [childrenOf_described node name about (by decide), if_neg (by simp), List.append_nil]
  have hdescribed : (node.described name about).childrenOf .description = node.childrenOf .description ++
      if about = [] then [] else [leaf node.place .description .string about] := by
    rw [childrenOf_described node name about (by decide)]
    by_cases habout : about = [] <;> simp [habout]
  have hcases := numberInOrder_cases (node.described name about)
  rw [hconstants] at hcases
  rcases hcases with ⟨hoverflows, left, constant, hnumber, hmem⟩ | ⟨hfits, after, counted, hnumber⟩
  · have hfailed := hclose.trans (checking_of_refused hnumber symbols)
    exact ⟨iff_of_true ⟨_, _, constant, hfailed, rfl, rfl, hmem⟩ hoverflows,
      fun hfits => absurd hoverflows hfits⟩
  · have hothers (key : Keyword) (hkey : key ≠ .constant) :
        ({ node.described name about with children := after } : Node).childrenOf key =
          (node.described name about).childrenOf key := counted.others key hkey
    have hbound : ∀ number ∈ numbers 0 owns, number ≤ Int64.maxValue.toInt := by
      rw [overflows_iff] at hfits
      simpa using hfits
    obtain ⟨counts, hcounts, hbears⟩ := exists_counts constants (by decide) hbound
    have hdescriptions : (node.childrenOf .description ++ if about = [] then [] else
        [leaf node.place .description .string about]).length ≤ 1 := by
      by_cases habout : about = []
      · simpa [habout] using hsingle
      · simp [habout, hdescription habout]
    have hsucceeded := hclose.trans (checking_of_numbered hnumber (values_described node name about)
      (by rw [hothers _ (by decide), hdescribed]; exact hdescriptions) (register_of_free hfree _))
    refine ⟨iff_of_false ?_ hfits, fun _ => ⟨_, _, counts, hsucceeded, hcounts, ?_,
      values_described node name about, (hothers _ (by decide)).trans hdescribed⟩⟩
    · rintro ⟨fault, left, constant, hfailed, -⟩
      cases hsucceeded.symm.trans hfailed
    · have hnumbered : after.filter (·.tag = .constant) =
          constants.zipWith withNumber (numbers 0 owns) := by
        rw [counted.constants]
        exact congrArg (fun nodes => nodes.zipWith withNumber (numbers 0 (nodes.map own))) hconstants
      change List.Forall₂ _ _ (after.filter (·.tag = .constant))
      rw [hnumbered]
      exact hbears

end closing

theorem own_of_bears {constant after : Node} {number : Int64} (h : Bears constant number after) :
    own after = some number := by
  rw [own, h.value]
  rfl

theorem map_own_of_bears {constants after : List Node} {counts : List Int64}
    (hlength : counts.length = constants.length)
    (h : List.Forall₂ (fun given after => Bears given.1 given.2 after) (constants.zip counts) after) :
    after.map own = counts.map some := by
  induction constants generalizing counts after with
  | nil =>
    cases List.length_eq_zero_iff.mp hlength
    cases h
    rfl
  | cons constant constants ih =>
    cases counts with
    | nil => cases hlength
    | cons count counts =>
      rw [List.zip_cons_cons] at h
      cases h with
      | cons hbears hrest =>
        rw [List.map_cons, List.map_cons, own_of_bears hbears, ih (Nat.succ.inj hlength) hrest]

/-- Here the greatest number is first followed by one that is given, and then by one that is not. -/
theorem close_enumeration_around_greatest :
    let constant (name : String) (number : Option Int64) : Node :=
      { start .constant (Standard.signature .constant) ⟨"a.talk", 2⟩ with
        values := fun key =>
          if key = .name then some (.text name) else if key = .value then number.map .integer else none
        phase := .closed }
    let node (constants : List Node) : Node :=
      { start .enumeration (Standard.signature .enumeration) ⟨"a.talk", 1⟩ with
        words := ["Level", "how", "bad"]
        children := constants }
    (∃ closed registered, close .standard (Standard.schema .enumeration)
        (node [constant "A" none, constant "B" (some Int64.maxValue), constant "C" (some (-5)),
          constant "D" none], .empty) = .ok () (closed, registered) ∧
      (closed.childrenOf .constant).map (fun constant => (own constant).map (·.toInt)) =
        [some 0, some Int64.maxValue.toInt, some (-5), some (-4)]) ∧
    ∃ fault left, close .standard (Standard.schema .enumeration)
        (node [constant "A" (some Int64.maxValue), constant "B" none], .empty) =
          .error fault (left, .empty) ∧
      fault.message = "constant B overflows the enumeration counter" := by
  intro constant node
  constructor
  · let constants := [constant "A" none, constant "B" (some Int64.maxValue), constant "C" (some (-5)),
      constant "D" none]
    have hfits : ¬ Overflows (constants.map own) := by
      rw [overflows_iff]
      decide
    have hsignature : (node constants).signature = Standard.signature .enumeration := rfl
    have hwords : (node constants).words = "Level" :: ["how", "bad"] := rfl
    obtain ⟨-, hnumbered⟩ :=
      close_enumeration hsignature rfl hwords (Nat.zero_le 1) (fun _ => rfl) .empty rfl
    obtain ⟨closed, registered, counts, hclose, hcounts, hbears, -⟩ := hnumbered hfits
    have hcounted : counts.map Int64.toInt = [0, Int64.maxValue.toInt, -5, -4] := hcounts.trans (by decide)
    have hlength : counts.length = constants.length :=
      (List.length_map Int64.toInt).symm.trans (congrArg List.length hcounted)
    have howns : (closed.childrenOf .constant).map own = counts.map some := map_own_of_bears hlength hbears
    refine ⟨closed, registered, hclose, ?_⟩
    calc (closed.childrenOf .constant).map (fun constant => (own constant).map (·.toInt))
        = ((closed.childrenOf .constant).map own).map (Option.map (·.toInt)) := by
          rw [List.map_map]
          rfl
      _ = (counts.map Int64.toInt).map some := by
          rw [howns, List.map_map, List.map_map]
          rfl
      _ = [some 0, some Int64.maxValue.toInt, some (-5), some (-4)] := by rw [hcounted]; rfl
  · let constants := [constant "A" (some Int64.maxValue), constant "B" none]
    have hoverflows : Overflows (constants.map own) := ⟨0, by decide, by decide⟩
    have hsignature : (node constants).signature = Standard.signature .enumeration := rfl
    have hwords : (node constants).words = "Level" :: ["how", "bad"] := rfl
    obtain ⟨hfails, -⟩ :=
      close_enumeration hsignature rfl hwords (Nat.zero_le 1) (fun _ => rfl) .empty rfl
    obtain ⟨fault, left, last, hclose, -, hmessage, hmem⟩ := hfails.mpr hoverflows
    refine ⟨fault, left, hclose, hmessage.trans ?_⟩
    have hlast : (last, Int64.maxValue.toInt + 1) ∈
      [(constant "A" (some Int64.maxValue), Int64.maxValue.toInt),
        (constant "B" none, Int64.maxValue.toInt + 1)] := hmem
    simp only [List.mem_cons, Prod.mk.injEq, List.not_mem_nil, or_false] at hlast
    rcases hlast with ⟨-, hcount⟩ | ⟨rfl, -⟩
    · exact absurd hcount (by decide)
    · rfl

end Node
end TagSchema
