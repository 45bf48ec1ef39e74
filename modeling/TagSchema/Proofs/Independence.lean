import TagSchema.Proofs.Declared
import TagSchema.Proofs.Finishing

/-! A file is read behind other files just as it is read alone, unless it declares a name that was
declared before. Two runs are compared step by step: one that starts afresh, and one that starts
behind the earlier files. -/
namespace TagSchema.Reading
open Grammar Node

def Collide (reading other : Reading) : Prop :=
  ∃ space, ∃ node ∈ reading.root.node.childrenOf (Namespace.tag space),
    ∃ node' ∈ other.root.node.childrenOf (Namespace.tag space), ∃ name,
      node.text? .name = some name ∧ node'.text? .name = some name

theorem Collide.mono {reading other later : Reading} (h : Collide reading other)
    (hlater : Extends other later) : Collide reading later := by
  obtain ⟨space, node, hnode, node', hnode', hname⟩ := h
  exact ⟨space, node, hnode, node', (hlater.children _).subset hnode', hname⟩

/-- The combined run is where the lone run is, with the nodes of the earlier files under its root
before those of the file. -/
structure Behind (prior alone combined : Reading) : Prop where
  lone : alone.Sound
  whole : combined.Sound
  opened : combined.opened = alone.opened
  children : ∀ key, combined.root.node.childrenOf key =
    prior.root.node.childrenOf key ++ alone.root.node.childrenOf key

/-- Where the lone run fails, the combined one fails. Where the lone run goes on, the combined one
goes on with it, or else fails at a name that is taken. -/
def Pairs (prior : Reading) : (alone combined : EStateM.Result Fault Reading α) → Prop
  | .error _ _, result => ∃ fault lost, result = .error fault lost
  | .ok a alone, result => (∃ combined, result = .ok a combined ∧ Behind prior alone combined) ∨
    (∃ fault lost, result = .error fault lost) ∧ Collide prior alone

structure Follows (prior : Reading) (step : Step α) : Prop where
  keeps : ∀ start, Keeps (Extends start) step
  pairs : ∀ alone combined, Behind prior alone combined → Pairs prior (step alone) (step combined)

variable {prior : Reading}

namespace Follows

theorem bind {step : Step β} {next : β → Step α} (hstep : Follows prior step)
    (hnext : ∀ b, Follows prior (next b)) : Follows prior (step >>= next) := by
  refine ⟨fun start => (hstep.keeps start).bind fun b => (hnext b).keeps start,
    fun alone combined behind => ?_⟩
  have hpairs := hstep.pairs alone combined behind
  cases hrun : step alone with
  | error fault lost =>
    rw [hrun] at hpairs
    obtain ⟨fault', lost', hrun'⟩ := hpairs
    rw [bind_of_error hrun, bind_of_error hrun']
    exact ⟨fault', lost', rfl⟩
  | ok b between =>
    rw [hrun] at hpairs
    rcases hpairs with ⟨between', hrun', hbehind⟩ | ⟨⟨fault, lost, hrun'⟩, hcollide⟩
    · rw [bind_of_ok hrun, bind_of_ok hrun']
      exact (hnext b).pairs between between' hbehind
    · rw [bind_of_ok hrun, bind_of_error hrun']
      cases hthen : next b between with
      | error => exact ⟨fault, lost, rfl⟩
      | ok a after =>
        -- The lone run goes on without the combined one, but it drops no name.
        have hbetween := ((hstep.keeps alone).ok behind.lone.extends hrun).toSound
        have hafter := ((hnext b).keeps between).ok hbetween.extends hthen
        exact .inr ⟨⟨fault, lost, rfl⟩, hcollide.mono hafter⟩

theorem pure (a : α) : Follows prior (Pure.pure a : Step α) :=
  ⟨fun _ _ hreading => hreading, fun _ combined behind => .inl ⟨combined, rfl, behind⟩⟩

theorem forM {body : β → Step Unit} {items : List β} (h : ∀ item ∈ items, Follows prior (body item)) :
    Follows prior (items.forM body) := by
  induction items with
  | nil => exact pure ()
  | cons item items ih =>
    rw [List.forM_eq_forM, List.forM_cons]
    refine bind (h item List.mem_cons_self) fun _ => ih fun other hother => ?_
    exact h other (List.mem_cons_of_mem _ hother)

end Follows

theorem Behind.declared {alone combined : Reading} (behind : Behind prior alone combined)
    (space : Namespace) :
    combined.root.node.declared space =
      prior.root.node.declared space ++ alone.root.node.declared space := by
  unfold Node.declared
  rw [behind.children, List.filterMap_append]

theorem Behind.collide {root root' scope : Scope} {opened opened' : List Scope}
    {symbols symbols' registered : Symbols} {node : Node} {full : String} {space : Namespace}
    (behind : Behind prior ⟨.standard, root, opened, symbols⟩ ⟨.standard, root', opened', symbols'⟩)
    (enlists : Enlists scope node full space)
    (hfree : ∀ symbol ∈ root.node.declared space, symbol.name ≠ full)
    (htaken : ¬ ∀ symbol ∈ root'.node.declared space, symbol.name ≠ full) :
    Collide prior ⟨.standard, root.including node, [], registered⟩ := by
  push Not at htaken
  obtain ⟨taken, hmem, rfl⟩ := htaken
  have hdeclared : root'.node.declared space =
      prior.root.node.declared space ++ root.node.declared space := behind.declared space
  rw [hdeclared] at hmem
  rcases List.mem_append.mp hmem with hmem | hmem
  · obtain ⟨earlier, hearlier, hname, -⟩ := mem_declared.mp hmem
    refine ⟨space, earlier, hearlier, node, ?_, taken.name, hname, enlists.name⟩
    change node ∈ (root.node.attach node).childrenOf space.tag
    rw [childrenOf_attach, if_pos enlists.tag.symm]
    exact List.mem_append_right _ (List.mem_singleton_self node)
  · exact absurd rfl (hfree taken hmem)

theorem Behind.including {root root' scope : Scope} {symbols symbols' registered registered' : Symbols}
    {node : Node}
    (behind : Behind prior ⟨.standard, root, [scope], symbols⟩ ⟨.standard, root', [scope], symbols'⟩)
    (hrun : closeInnermost ⟨.standard, root, [scope], symbols⟩ =
      .ok () ⟨.standard, root.including node, [], registered⟩)
    (hrun' : closeInnermost ⟨.standard, root', [scope], symbols'⟩ =
      .ok () ⟨.standard, root'.including node, [], registered'⟩) :
    Behind prior ⟨.standard, root.including node, [], registered⟩
      ⟨.standard, root'.including node, [], registered'⟩ := by
  refine ⟨(keeps_closeInnermost.ok behind.lone.extends hrun).toSound,
    (keeps_closeInnermost.ok behind.whole.extends hrun').toSound, rfl, fun key => ?_⟩
  have hchildren : root'.node.childrenOf key =
      prior.root.node.childrenOf key ++ root.node.childrenOf key := behind.children key
  change (root'.node.attach node).childrenOf key =
    prior.root.node.childrenOf key ++ (root.node.attach node).childrenOf key
  rw [childrenOf_attach, childrenOf_attach, hchildren]
  split
  · rw [List.append_assoc]
  · rfl

theorem Behind.pairs_enlists {root root' scope : Scope} {symbols symbols' : Symbols} {node : Node}
    {full : String} {space : Namespace}
    (behind : Behind prior ⟨.standard, root, [scope], symbols⟩ ⟨.standard, root', [scope], symbols'⟩)
    (enlists : Enlists scope node full space) :
    Pairs prior (closeInnermost ⟨.standard, root, [scope], symbols⟩)
      (closeInnermost ⟨.standard, root', [scope], symbols'⟩) := by
  by_cases hfree : ∀ symbol ∈ root.node.declared space, symbol.name ≠ full
  · obtain ⟨registered, hrun, -⟩ := enlists.free behind.lone.root behind.lone.symbols hfree
    by_cases hfree' : ∀ symbol ∈ root'.node.declared space, symbol.name ≠ full
    · obtain ⟨registered', hrun', -⟩ := enlists.free behind.whole.root behind.whole.symbols hfree'
      have hbehind := behind.including hrun hrun'
      rw [hrun, hrun']
      exact .inl ⟨_, rfl, hbehind⟩
    · obtain ⟨fault, hrefused⟩ := enlists.taken behind.whole.symbols hfree'
      rw [hrun, hrefused]
      exact .inr ⟨⟨_, _, rfl⟩, behind.collide enlists hfree hfree'⟩
  · have htaken : ¬ ∀ symbol ∈ root'.node.declared space, symbol.name ≠ full := by
      intro hfree'
      refine hfree fun symbol hsymbol => hfree' symbol ?_
      have hdeclared : root'.node.declared space =
          prior.root.node.declared space ++ root.node.declared space := behind.declared space
      rw [hdeclared]
      exact List.mem_append_right _ hsymbol
    obtain ⟨fault, hrefused⟩ := enlists.taken behind.lone.symbols hfree
    obtain ⟨fault', hrefused'⟩ := enlists.taken behind.whole.symbols htaken
    rw [hrefused, hrefused']
    exact ⟨_, _, rfl⟩

theorem follows_closeInnermost : Follows prior closeInnermost := by
  refine ⟨fun start => keeps_closeInnermost, ?_⟩
  rintro ⟨grammar, root, opened, symbols⟩ ⟨grammar', root', opened', symbols'⟩ behind
  obtain rfl : grammar = .standard := behind.lone.grammar
  obtain rfl : grammar' = .standard := behind.whole.grammar
  obtain rfl : opened = opened' := behind.opened.symm
  cases opened with
  | nil => exact .inl ⟨_, rfl, behind⟩
  | cons scope opened =>
    cases opened with
    | nil =>
      have hscope : scope.OpenedIn root := behind.lone.stacked.1
      rcases closeInnermost_top hscope behind.lone.root.toOpen with
        ⟨fault, -, hfails⟩ | ⟨node, full, space, enlists⟩
      · rw [hfails, hfails]
        exact ⟨_, _, rfl⟩
      · exact behind.pairs_enlists enlists
    | cons outer opened =>
      have hscope : scope.OpenedIn outer := behind.lone.stacked.1
      obtain ⟨name, houter, hbase⟩ := behind.lone.stacked.2.open_ne_base behind.lone.root.toOpen
      rcases closeInnermost_inner hscope houter hbase opened with
        ⟨fault, -, hfails⟩ | ⟨child, -, -, hfolds⟩
      · rw [hfails, hfails]
        exact ⟨_, _, rfl⟩
      · -- Inside of a top-level scope nothing depends on what was declared before.
        have hlone := (keeps_closeInnermost.ok behind.lone.extends (hfolds root symbols)).toSound
        have hwhole := (keeps_closeInnermost.ok behind.whole.extends (hfolds root' symbols')).toSound
        rw [hfolds, hfolds]
        exact .inl ⟨_, rfl, hlone, hwhole, rfl, behind.children⟩

theorem follows_closeScopes (n : Nat) : Follows prior (closeScopes n) := by
  induction n with
  | zero => exact .pure ()
  | succ n ih => exact follows_closeInnermost.bind fun _ => ih

theorem follows_closeAll : Follows prior closeAll := by
  refine ⟨fun start => keeps_closeAll, fun alone combined behind => ?_⟩
  have hdepth : combined.depth = alone.depth := by
    unfold depth
    rw [behind.opened]
  change Pairs prior (closeScopes alone.depth alone) (closeScopes combined.depth combined)
  rw [hdepth]
  exact (follows_closeScopes alone.depth).pairs alone combined behind

theorem Behind.declaring {alone combined : Reading} (behind : Behind prior alone combined)
    (key : Keyword) (place : Place) :
    (combined.opened.headD combined.root).child .standard key place =
      (alone.opened.headD alone.root).child .standard key place := by
  rw [behind.opened]
  cases alone.opened with
  | nil =>
    refine Scope.child_eq_of_signature ?_ ?_ key place
    · exact behind.whole.root.signature.trans behind.lone.root.signature.symm
    · exact behind.whole.root.tag.trans behind.lone.root.tag.symm
  | cons scope outer => rfl

theorem follows_openTag (key : Keyword) (place : Place) : Follows prior (openTag key place) := by
  refine ⟨fun start => keeps_openTag key place, fun alone combined behind => ?_⟩
  have hclose := follows_closeInnermost.pairs alone combined behind
  unfold openTag
  rw [behind.declaring]
  rcases Scope.child_cases (alone.opened.headD alone.root) key place with
    ⟨fault, hchild, -⟩ | hchild | ⟨schema, hchild, -⟩
  · rw [hchild]
    exact ⟨_, _, rfl⟩
  · rw [hchild]
    exact hclose
  · generalize Scope.start key schema place = scope at hchild
    have hlone : openTag key place alone = .ok () { alone with opened := scope :: alone.opened } := by
      unfold openTag
      rw [hchild]
    have hwhole : openTag key place combined =
        .ok () { combined with opened := scope :: combined.opened } := by
      unfold openTag
      rw [behind.declaring, hchild]
    rw [hchild]
    refine .inl ⟨_, rfl, ((keeps_openTag key place).ok behind.lone.extends hlone).toSound,
      ((keeps_openTag key place).ok behind.whole.extends hwhole).toSound, ?_, behind.children⟩
    change scope :: combined.opened = scope :: alone.opened
    rw [behind.opened]

theorem Behind.inside? {alone combined : Reading} (behind : Behind prior alone combined)
    (key : Keyword) : combined.inside? key = alone.inside? key := by
  have hroot : combined.root.declares key = alone.root.declares key := by
    unfold Scope.declares
    rw [behind.whole.root.signature, behind.lone.root.signature]
  unfold Reading.inside? frames
  rw [behind.opened, List.findIdx?_append, List.findIdx?_append, List.findIdx?_singleton,
    List.findIdx?_singleton, hroot]

theorem follows_enter (word : String) (place : Place) : Follows prior (enter word place) := by
  refine ⟨fun start => keeps_enter word place, fun alone combined behind => ?_⟩
  rw [enter_eq behind.lone.grammar, enter_eq behind.whole.grammar]
  simp only [behind.inside?]
  cases (Keyword.ofSpelling? word).bind fun key => (alone.inside? key).map (key, ·) with
  | none => exact ⟨_, _, rfl⟩
  | some found =>
    have hopen : Follows prior (closeScopes found.2 >>= fun _ => openTag found.1 place) :=
      (follows_closeScopes found.2).bind fun _ => follows_openTag found.1 place
    exact hopen.pairs alone combined behind

theorem follows_keep (word : String) (place : Place) : Follows prior (keep word place) := by
  refine ⟨fun start => keeps_keep word place, ?_⟩
  rintro ⟨grammar, root, opened, symbols⟩ ⟨grammar', root', opened', symbols'⟩ behind
  obtain rfl : opened = opened' := behind.opened.symm
  cases opened with
  | nil => exact ⟨_, _, rfl⟩
  | cons scope outer =>
    have hlone := (keeps_keep word place).ok behind.lone.extends rfl
    have hwhole := (keeps_keep word place).ok behind.whole.extends rfl
    exact .inl ⟨_, rfl, hlone.toSound, hwhole.toSound, rfl, behind.children⟩

theorem follows_word (place : Place) (text : String) : Follows prior (word place text) := by
  unfold word
  split
  · exact follows_enter _ place
  · exact follows_keep text place

theorem follows_file (name text : String) : Follows prior (file name text) :=
  .bind (.forM fun _ _ => follows_word _ _) fun _ => follows_closeAll

theorem Sound.behind {reading : Reading} (sound : reading.Sound) (hopened : reading.opened = []) :
    Behind reading standard reading := by
  refine ⟨sound_standard, sound, hopened, fun key => ?_⟩
  have hnone : standard.root.node.childrenOf key = [] := rfl
  rw [hnone, List.append_nil]

theorem Behind.not_collide {alone combined : Reading} (behind : Behind prior alone combined) :
    ¬ Collide prior alone := by
  rintro ⟨space, node, hnode, node', hnode', name, hname, hname'⟩
  have hdistinct := behind.whole.distinct space
  rw [behind.declared, List.map_append, List.nodup_append] at hdistinct
  refine hdistinct.2.2 name (List.mem_map.mpr ⟨⟨name, node.place⟩, ?_, rfl⟩) name
    (List.mem_map.mpr ⟨⟨name, node'.place⟩, ?_, rfl⟩) rfl
  · exact mem_declared.mpr ⟨node, hnode, hname, rfl⟩
  · exact mem_declared.mpr ⟨node', hnode', hname', rfl⟩

def alone (source : String × String) : Reading := after (file source.1 source.2) standard

/-- Behind other files, a file can be read just if it can be read alone and declares no name of
theirs. -/
theorem Sound.file_ok_iff {reading : Reading} (sound : reading.Sound) (hopened : reading.opened = [])
    (source : String × String) :
    (∃ combined, file source.1 source.2 reading = .ok () combined) ↔
      (∃ lone, file source.1 source.2 standard = .ok () lone) ∧ ¬ Collide reading (alone source) := by
  have hpairs := (follows_file source.1 source.2).pairs standard reading (sound.behind hopened)
  unfold alone after
  cases hlone : file source.1 source.2 standard with
  | error fault lost =>
    rw [hlone] at hpairs
    obtain ⟨fault', lost', hrun⟩ := hpairs
    simp [hrun]
  | ok _ lone =>
    rw [hlone] at hpairs
    rcases hpairs with ⟨combined, hrun, hbehind⟩ | ⟨⟨fault, lost, hrun⟩, hcollide⟩
    · simp [hrun, hbehind.not_collide]
    · simp [hrun, hcollide]

theorem Sound.file_behind {reading combined : Reading} (sound : reading.Sound)
    (hopened : reading.opened = []) {source : String × String}
    (h : file source.1 source.2 reading = .ok () combined) :
    Behind reading (alone source) combined := by
  have hpairs := (follows_file source.1 source.2).pairs standard reading (sound.behind hopened)
  obtain ⟨⟨lone, hlone⟩, -⟩ := (sound.file_ok_iff hopened source).mp ⟨combined, h⟩
  unfold alone after
  rw [hlone, h] at hpairs
  rw [hlone]
  rcases hpairs with ⟨found, hfound, hbehind⟩ | ⟨⟨fault, lost, hrun⟩, -⟩
  · cases hfound
    exact hbehind
  · cases hrun

end TagSchema.Reading
