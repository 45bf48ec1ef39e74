import Mathlib.Data.List.Nodup
import TagSchema.Proofs.Listing
import TagSchema.Symbols.Outline

/-! The outline shows which symbols there are, not in which order they came. -/
namespace TagSchema.Symbols

namespace Branch

variable {s t : String} {f g : Branch → Branch} {branch : Branch}

theorem alter_same (h : s = branch.segment) (f : Branch → Branch) (level : List Branch) :
    alter s f (branch :: level) = f branch :: level := by
  rw [alter, if_pos h]

theorem alter_before (h : s < branch.segment) (f : Branch → Branch) (level : List Branch) :
    alter s f (branch :: level) = f ⟨s, none, []⟩ :: branch :: level := by
  rw [alter, if_neg (String.ne_of_lt h), if_pos h]

theorem alter_behind (h : branch.segment < s) (f : Branch → Branch) (level : List Branch) :
    alter s f (branch :: level) = branch :: alter s f level := by
  rw [alter, if_neg (String.ne_of_lt h).symm, if_neg (String.lt_asymm h)]

theorem segment_cases (s t : String) : s = t ∨ s < t ∨ t < s := by
  by_cases hst : s < t
  · exact .inr (.inl hst)
  · by_cases hts : t < s
    · exact .inr (.inr hts)
    · exact .inl (String.le_antisymm (String.not_lt.mp hts) (String.not_lt.mp hst))

theorem alter_alter (hg : ∀ branch, (g branch).segment = branch.segment) (level : List Branch) :
    alter s f (alter s g level) = alter s (f ∘ g) level := by
  have hnew : s = (g ⟨s, none, []⟩).segment := by rw [hg]
  induction level with
  | nil =>
    change alter s f [g ⟨s, none, []⟩] = [f (g ⟨s, none, []⟩)]
    rw [alter_same hnew]
  | cons branch level ih =>
    rcases segment_cases s branch.segment with h | h | h
    · have hchanged : s = (g branch).segment := by rw [hg, h]
      rw [alter_same h, alter_same hchanged, alter_same h]
      rfl
    · rw [alter_before h, alter_same hnew, alter_before h]
      rfl
    · rw [alter_behind h, alter_behind h, alter_behind h, ih]

theorem alter_comm_of_lt (hf : ∀ branch, (f branch).segment = branch.segment)
    (hg : ∀ branch, (g branch).segment = branch.segment) (hst : s < t) (level : List Branch) :
    alter s f (alter t g level) = alter t g (alter s f level) := by
  have hs : s < (g ⟨t, none, []⟩).segment := by rw [hg]; exact hst
  have ht : (f ⟨s, none, []⟩).segment < t := by rw [hf]; exact hst
  induction level with
  | nil =>
    change alter s f [g ⟨t, none, []⟩] = alter t g [f ⟨s, none, []⟩]
    rw [alter_before hs, alter_behind ht]
    rfl
  | cons branch level ih =>
    rcases segment_cases s branch.segment with h | h | h
    · have htb : branch.segment < t := h ▸ hst
      have htf : (f branch).segment < t := by rw [hf]; exact htb
      rw [alter_behind htb, alter_same h, alter_same h, alter_behind htf]
    · rw [alter_before h, alter_behind ht]
      rcases segment_cases t branch.segment with h' | h' | h'
      · have hsg : s < (g branch).segment := by rw [hg]; exact h
        rw [alter_same h', alter_before hsg]
      · rw [alter_before h', alter_before hs]
      · rw [alter_behind h', alter_before h]
    · have htb : branch.segment < t := String.lt_trans h hst
      rw [alter_behind htb, alter_behind h, alter_behind h, alter_behind htb, ih]

theorem alter_comm (hf : ∀ branch, (f branch).segment = branch.segment)
    (hg : ∀ branch, (g branch).segment = branch.segment) (hne : s ≠ t) (level : List Branch) :
    alter s f (alter t g level) = alter t g (alter s f level) := by
  rcases segment_cases s t with h | h | h
  · exact absurd h hne
  · exact alter_comm_of_lt hf hg h level
  · exact (alter_comm_of_lt hg hf h level).symm

def mark (place : Place) (rest : List String) (branch : Branch) : Branch :=
  match rest with
  | [] => { branch with place := some place }
  | _ => { branch with inner := insert place rest branch.inner }

theorem segment_mark (place : Place) (rest : List String) (branch : Branch) :
    (mark place rest branch).segment = branch.segment := by
  cases rest with
  | nil => rfl
  | cons => rfl

theorem insert_cons (place : Place) (segment : String) (rest : List String) (level : List Branch) :
    insert place (segment :: rest) level = alter segment (mark place rest) level := by
  cases rest with
  | nil => rfl
  | cons => rfl

theorem insert_comm {path other : List String} (hne : path ≠ other) (place place' : Place)
    (level : List Branch) :
    insert place path (insert place' other level) = insert place' other (insert place path level) := by
  induction path generalizing other level with
  | nil => rfl
  | cons segment rest ih =>
    cases other with
    | nil => rfl
    | cons segment' rest' =>
      simp only [insert_cons]
      by_cases hsegment : segment = segment'
      · -- Both go into one branch. Below it the paths still differ, unless one of them ends there.
        subst hsegment
        have hrest : rest ≠ rest' := fun h => hne (by rw [h])
        have hmark : mark place rest ∘ mark place' rest' = mark place' rest' ∘ mark place rest := by
          funext branch
          cases rest with
          | nil =>
            cases rest' with
            | nil => exact absurd rfl hrest
            | cons => rfl
          | cons =>
            cases rest' with
            | nil => rfl
            | cons =>
              simp only [Function.comp_apply, mark]
              rw [ih hrest]
        rw [alter_alter (segment_mark place' rest'), hmark, alter_alter (segment_mark place rest)]
      · exact alter_comm (segment_mark place rest) (segment_mark place' rest') hsegment level

end Branch

variable {symbols other : Symbols} {listed listed' : Namespace → List Symbol}

theorem Table.outline_perm {delimiter : Option Char} {list list' : List Symbol}
    (hperm : list.Perm list') (hdistinct : (list.map (·.name)).Nodup) :
    (listing delimiter list).outline = (listing delimiter list').outline := by
  unfold outline listing
  dsimp only
  refine (hperm.map _).foldl_eq' (fun entry hentry entry' hentry' level => ?_) []
  obtain ⟨symbol, hsymbol, rfl⟩ := List.mem_map.mp hentry
  obtain ⟨symbol', hsymbol', rfl⟩ := List.mem_map.mp hentry'
  by_cases hsame : symbol = symbol'
  · rw [hsame]
  · refine Branch.insert_comm (fun hsegments => hsame ?_) _ _ level
    exact List.inj_on_of_nodup_map hdistinct hsymbol' hsymbol (split_injective _ hsegments) |>.symm

theorem Lists.display_perm (lists : symbols.Lists listed) (lists' : other.Lists listed')
    (hperm : ∀ space, (listed space).Perm (listed' space))
    (hdistinct : ∀ space, ((listed space).map (·.name)).Nodup) :
    symbols.display = other.display := by
  have hempty (space : Namespace) :
      (symbols.table space).entries.isEmpty = (other.table space).entries.isEmpty := by
    rw [lists space, lists' space]
    simpa [Table.listing] using (hperm space).isEmpty_eq
  have houtline (space : Namespace) :
      (symbols.table space).outline = (other.table space).outline := by
    rw [lists space, lists' space]
    exact Table.outline_perm (hperm space) (hdistinct space)
  unfold display isEmpty
  simp only [hempty, houtline]

end TagSchema.Symbols
