import LosslessSyntax.Proofs.Running

/-!
# Calls that are refused

A call of `create` or `createSourceFile` that is refused leaves no trace: every child is checked before anything is
linked. `Store.Traceless` says so of the links, and of whole runs: without the calls that are refused in it, a run goes
as it goes with them.

This takes calls that are regular (`Call.Regular`). Each of the three conditions keeps out one way in which a call can
fail when it has begun to change what was there:

* a slot that is set through an error changes that error, whatever happens to the call later (`Call.Harmless`);
* a source file is recorded for the nodes below it when its children are linked already, which fails at an object that
  only extends a node and cannot be read as one (`Call.Genuine`);
* what is found in a slot with the name of the base, and is no object, cannot be linked when earlier children are
  (`Input.Unshadowed`).
-/

namespace LosslessSyntax

namespace Store

variable {s t : Store} {made : List ObjectId} {α : Type}

/-! ## One call -/

/-- A regular call that is refused leaves the store as it was. -/
theorem Rooted.eq_of_refused (h : s.Rooted made) (hs : s.Sound made) {c : Call} (hgiven : c.Given s)
    (hc : c.Regular s made) {failure : Failure} (hrun : c.run s = (.error failure, t)) : t = s := by
  have hv := lt_size_of_object? hgiven.variant
  cases c with
  | node v input =>
    rcases create_spec hs.grounded hs.closed hv hgiven.input hc.harmless with
      ⟨_, n, rows, u, hrun', _⟩ | ⟨failure, u, hrun', ⟨_, rfl⟩ | hfails⟩
    · cases hrun.symm.trans hrun'
    · cases hrun.symm.trans hrun'
      rfl
    · cases hrun.symm.trans hrun'
      exact hfails.same hc.unshadowed
  | file g source input =>
    rcases createSourceFile_spec hs.grounded hs.closed hv source hgiven.input hc.harmless with
      ⟨_, n, rows, u, nodes, hrun', _⟩ | ⟨failure, u, hrun', hfails⟩ |
      ⟨failure, id, n, rows, u, nodes, hrun', hmade, hnodes⟩
    · cases hrun.symm.trans hrun'
    · cases hrun.symm.trans hrun'
      exact hfails.same hc.unshadowed
    · exact absurd hnodes
        (h.nodesOf_ne_failure hs hmade (genuine_children_recordRoot hc.genuine hrun' hmade) nodes failure)

theorem Reached.eq_of_refused (h : Reached (fun s made c => c.Regular s made) s made) {c : Call} (hgiven : c.Given s)
    (hc : c.Regular s made) {failure : Failure} (hrun : c.run s = (.error failure, t)) : t = s :=
  (h.rooted fun h => ⟨h.harmless, h.genuine⟩).eq_of_refused (h.sound Call.Regular.harmless) hgiven hc hrun

/-! ## Runs -/

/-- A step of a run: a call that makes a node, or any other work, which gives an answer. -/
inductive Step (α : Type) where
  | call (call : Call)
  | other (work : Store → α × Store)

/-- What a step comes to. -/
inductive Result (α : Type) where
  | made (id : ObjectId)
  | refused (failure : Failure)
  | answer (a : α)
  deriving DecidableEq

def Result.isRefused : Result α → Bool
  | .refused _ => true
  | _ => false

namespace Step

def run (s : Store) : Step α → Result α × Store
  | .call c =>
    match c.run s with
    | (.ok id, t) => (.made id, t)
    | (.error failure, t) => (.refused failure, t)
  | .other work => (.answer (work s).1, (work s).2)

/-- The results of steps that are taken one after the other, and the store that they lead to. -/
def runAll (s : Store) : List (Step α) → List (Result α) × Store
  | [] => ([], s)
  | step :: steps =>
    let (result, t) := step.run s
    let (results, u) := runAll t steps
    (result :: results, u)

/-- The steps of a run without the calls that are refused in it. -/
def accepted (s : Store) : List (Step α) → List (Step α)
  | [] => []
  | step :: steps =>
    let (result, t) := step.run s
    if result.isRefused then accepted t steps else step :: accepted t steps

end Step

/-- Steps that can be taken in a store in which some nodes were returned: calls that are allowed, and between them work
that only reads, or makes objects without links and changes none that is there. -/
inductive Follows (allowed : Store → List ObjectId → Call → Prop) : Store → List ObjectId → List (Step α) → Prop
  | nil {s : Store} {made : List ObjectId} : Follows allowed s made []
  | call {s : Store} {made : List ObjectId} {c : Call} {steps : List (Step α)} (given : c.Given s)
      (isAllowed : allowed s made c)
      (rest : Follows allowed (c.run s).2 ((c.run s).1.toOption.toList ++ made) steps) :
      Follows allowed s made (.call c :: steps)
  | other {s : Store} {made : List ObjectId} {work : Store → α × Store} {steps : List (Step α)}
      (untouched : (work s).2 = s ∨ s.Untouched (work s).2) (rest : Follows allowed (work s).2 made steps) :
      Follows allowed s made (.other work :: steps)

/-- Without the calls that are refused in it, a run gives the same results otherwise, and leads to the same store. -/
theorem Follows.runAll_accepted {steps : List (Step α)}
    (hsteps : Follows (fun s made c => c.Regular s made) s made steps)
    (h : Reached (fun s made c => c.Regular s made) s made) :
    Step.runAll s (Step.accepted s steps) =
      ((Step.runAll s steps).1.filter (!·.isRefused), (Step.runAll s steps).2) := by
  induction hsteps with
  | nil => rfl
  | @call s made c steps given isAllowed rest ih =>
    have hrest := ih (h.run given isAllowed)
    cases hrun : c.run s with
    | mk result t =>
      rw [hrun] at hrest
      cases result with
      | ok id =>
        have hstep : (Step.call c : Step α).run s = (.made id, t) := by simp only [Step.run, hrun]
        simp [Step.runAll, Step.accepted, hstep, Result.isRefused, hrest]
      | error failure =>
        obtain rfl : t = s := h.eq_of_refused given isAllowed hrun
        have hstep : (Step.call c : Step α).run t = (.refused failure, t) := by simp only [Step.run, hrun]
        simp [Step.runAll, Step.accepted, hstep, Result.isRefused, hrest]
  | other untouched rest ih =>
    have hrest := ih (untouched.elim (fun heq => heq.symm ▸ h) (.between h))
    simp [Step.runAll, Step.accepted, Step.run, Result.isRefused, hrest]

/-- Calls that are refused leave no trace: they change no link, and without them every run goes as it goes with them. -/
structure Traceless (allowed : Store → List ObjectId → Call → Prop) (s : Store) (made : List ObjectId) : Prop where
  links : ∀ {c : Call} {failure : Failure} {t : Store}, c.Given s → allowed s made c →
    c.run s = (.error failure, t) → ∀ id : ObjectId,
      t.parent? id = s.parent? id ∧ t.recorded? id = s.recorded? id ∧ t.isOwned id = s.isOwned id
  runs : ∀ {α : Type} {steps : List (Step α)}, Follows allowed s made steps →
    Step.runAll s (Step.accepted s steps) =
      ((Step.runAll s steps).1.filter (!·.isRefused), (Step.runAll s steps).2)

/-- After every run of regular calls, regular calls that are refused leave no trace. -/
theorem traceless_of_reached (h : Reached (fun s made c => c.Regular s made) s made) :
    s.Traceless (fun s made c => c.Regular s made) made where
  links hgiven hc hrun id := by
    rw [h.eq_of_refused hgiven hc hrun]
    exact ⟨rfl, rfl, rfl⟩
  runs hsteps := hsteps.runAll_accepted h

end Store

namespace Sample

open Store

/-- A second leaf of the same token is refused. -/
theorem traceless_leaf : ((leafCall 12).run stock).2.Traceless (fun s made c => c.Regular s made) [18] ∧
    (leafCall 12).Given ((leafCall 12).run stock).2 ∧ (leafCall 12).Regular ((leafCall 12).run stock).2 [18] ∧
    ((leafCall 12).run ((leafCall 12).run stock).2).1.toOption = none := by
  have hleaf : Reached (fun s made c => c.Regular s made) ((leafCall 12).run stock).2 [18] :=
    (reached_stock _).runAll [leafCall 12] (.cons rfl .nil) (by decide +kernel)
  have hagain : (leafCall 12).Regular ((leafCall 12).run stock).2 [18] ∧
      ((leafCall 12).run ((leafCall 12).run stock).2).1.toOption = none := by decide +kernel
  exact ⟨traceless_of_reached hleaf, given_leafCall (by decide +kernel), hagain⟩

/-! ### Calls that leave a trace -/

/-- A kind of node with a slot before the one with the name of the base. -/
def snare : Variant :=
  { self := 17, kind := 3, name := "Snare", layout := [("word", Layout.one), (baseName, Layout.one)]
    isSourceFile := false }

/-- A record with the members of a token, and one with the name of the base. -/
def shadow (v : Value) : Object :=
  .ofMembers [("tag", .text "token"), ("kind", .ofNat 1), ("fullStart", .number 0), ("start", .number 0),
    ("length", .number 1), (baseName, v)]

/-- Objects for nodes with the snare: the one with the first record cannot be linked to all it holds, and with the second
record there is no token in the slot of the other node. -/
def snares : List Object := [.variant snare, .ofMembers snare.layout, shadow (.number 5), shadow (.object 7)]

/-- Makes a node of a token and one of the records. -/
def snareCall (bait : ObjectId) : Call :=
  .node snare (.ofMembers [("word", .one (.object 12)), (baseName, .one (.object bait))])

theorem reached_snares (allowed : Store → List ObjectId → Call → Prop) : Reached allowed (stock.addAll snares) [] := by
  have hstock := (reached_stock fun s _ c => c.Harmless s).sound id
  refine .between (reached_stock allowed) (untouched_addAll hstock.grounded hstock.closed ?_)
  intro o ho
  simp only [snares, List.mem_cons, List.not_mem_nil, or_false] at ho
  rcases ho with rfl | rfl | rfl | rfl <;> exact Object.refers_of_members nofun (by decide)

/-- A leaf and a node that extends the error. -/
def baited : Store := ((hookCall .null).run ((leafCall 12).run stock).2).2

theorem reached_extend (allowed : Store → List ObjectId → Call → Prop) :
    Reached allowed (extend stock Ground.node.id) [] := by
  have hstock := (reached_stock fun s _ c => c.Harmless s).sound id
  exact .between (reached_stock allowed) (untouched_extend hstock.grounded hstock.closed _ (hstock.grounded.ground_lt .node))

theorem not_traceless_of_isOwned {allowed : Store → List ObjectId → Call → Prop} {s : Store} {made : List ObjectId}
    {c : Call} {m : Members SlotValue} (hinput : c.input = .ofMembers m) (id : ObjectId)
    (h : Runs allowed made s made [c] ∧ (c.run s).1.toOption = none ∧ (c.run s).2.isOwned id ≠ s.isOwned id) :
    ¬ s.Traceless allowed made := by
  intro htraceless
  obtain ⟨⟨hnames, hallowed, _⟩, hnone, howned⟩ := h
  cases hrun : (c.run s).1 with
  | ok made =>
    rw [hrun] at hnone
    cases hnone
  | error failure => exact howned (htraceless.links (given_of_names hinput hnames) hallowed (Prod.ext hrun rfl) id).2.2

/-- The node with the snare is refused when its first child is linked already. -/
theorem not_traceless_snares :
    ¬ (stock.addAll snares).Traceless (fun s made c => c.Harmless s ∧ c.Genuine s made) [] :=
  not_traceless_of_isOwned (c := snareCall 19) rfl 12 (by decide +kernel)

/-- The document of an object without slots is refused when its end-of-file token is linked already. -/
theorem not_traceless_extend : ¬ (extend stock Ground.node.id).Traceless
    (fun s _ c => c.Harmless s ∧ c.input.Unshadowed s c.variant.layout) [] :=
  not_traceless_of_isOwned (c := documentCall letters [17] 15) rfl 15 (by decide +kernel)

theorem reached_baited :
    Reached (fun s made c => c.Genuine s made ∧ c.input.Unshadowed s c.variant.layout) baited [20, 18] :=
  (reached_stock _).runAll [leafCall 12, hookCall .null] (.cons rfl (.cons rfl .nil)) (by decide +kernel)

/-- A second node that extends the error, which is refused, and a look at the slots of the first one. -/
def baitedSteps : List (Step (Option (Members Value))) :=
  [.call (hookCall (.object 18)), .other fun s => ((s.contents (.object 20)).toOption, s)]

/-- The leaf is put into a slot of the first node by the call that is refused. -/
theorem not_traceless_baited :
    ¬ baited.Traceless (fun s made c => c.Genuine s made ∧ c.input.Unshadowed s c.variant.layout) [20, 18] := by
  intro htraceless
  have hsteps : Follows (fun s made c => c.Genuine s made ∧ c.input.Unshadowed s c.variant.layout) baited [20, 18]
      baitedSteps :=
    .call (given_hookCall (by decide +kernel)) (by decide +kernel) (.other (.inl rfl) .nil)
  have hresults : (Step.runAll baited (Step.accepted baited baitedSteps)).1 ≠
      (Step.runAll baited baitedSteps).1.filter (!·.isRefused) := by decide +kernel
  exact hresults (congrArg Prod.fst (htraceless.runs hsteps))

/-- None of the three conditions can be left out. -/
theorem not_traceless_without_regular :
    (Reached (fun s made c => c.Harmless s ∧ c.Genuine s made) (stock.addAll snares) [] ∧
      ¬ (stock.addAll snares).Traceless (fun s made c => c.Harmless s ∧ c.Genuine s made) []) ∧
    (Reached (fun s _ c => c.Harmless s ∧ c.input.Unshadowed s c.variant.layout) (extend stock Ground.node.id) [] ∧
      ¬ (extend stock Ground.node.id).Traceless
        (fun s _ c => c.Harmless s ∧ c.input.Unshadowed s c.variant.layout) []) ∧
    Reached (fun s made c => c.Genuine s made ∧ c.input.Unshadowed s c.variant.layout) baited [20, 18] ∧
      ¬ baited.Traceless (fun s made c => c.Genuine s made ∧ c.input.Unshadowed s c.variant.layout) [20, 18] :=
  ⟨⟨reached_snares _, not_traceless_snares⟩, ⟨reached_extend _, not_traceless_extend⟩, reached_baited,
    not_traceless_baited⟩

end Sample

end LosslessSyntax
