import LosslessSyntax.Proofs.Attaching

/-!
# Making nodes

What a call of `create` or `createSourceFile` comes to, for any variant and any input.

* `create_spec`, `createSourceFile_spec`: either a node is made (`Store.Made`), and a source file is recorded for all
  nodes below it, or the call fails; the links are changed as `Store.Grown` says in both cases.
* If nothing hides what the record of slots extends, a call that fails leaves the store as it was. Without a slot with
  the name of the base, `Store.Refused` says why it failed.
* `mem_nodesFrom`: the nodes for which a source file is recorded are those that it reaches.
-/

namespace LosslessSyntax.Store

variable {s t : Store} {p : Plan} {input : Input}

/-! ## Work that is undone -/

/-- Without what was added, a store is as it was. -/
theorem Extends.take (h : s.Extends t) : t.cells.take s.size = s.cells := by
  refine Array.ext_getElem? fun (id : Nat) => ?_
  show (t.cells.extract 0 s.size)[id]? = s.cell? id
  have hle : s.size ≤ t.cells.size := h.size_le
  rw [Array.getElem?_extract, Nat.zero_add]
  rcases Nat.lt_or_ge id s.size with hlt | hge
  · rw [if_pos (by omega)]
    exact h.cell hlt
  · rw [if_neg (by omega), cell?_eq_none hge]

theorem forgetting_ok {α : Type} {work : Building α} {a : α} (h : work s = (.ok a, t)) :
    work.forgetting s = (.ok a, t) := by
  simp only [Building.forgetting, h]

/-- Work that fails is undone if all that it did was to make objects. -/
theorem forgetting_error {α : Type} {work : Building α} {failure : Failure} (h : work s = (.error failure, t)) :
    ∃ u, work.forgetting s = (.error failure, u) ∧ (u = s ∨ u = t) ∧ (s.Extends t → u = s) := by
  refine ⟨if t.cells.take s.size = s.cells then s else t, by simp only [Building.forgetting, h], ?_, fun hold => ?_⟩
  · split
    · exact .inl rfl
    · exact .inr rfl
  · rw [if_pos hold.take]

/-! ## Building a node -/

/-- A node that can be made of the slots of a new record. -/
structure Fits (s : Store) (p : Plan) (n : Node) (t : Store) : Prop where
  slots : n.slots = s.size
  plain : n.assigned = []
  layout : n.variant.slotNames = p.layout.names
  variant : n.variant.self < s.size
  file : ∀ f, n.file = some f → f.endOfFile < t.size

/-- Why a node is refused of which the record of slots is all that is missing: a name is no slot, what is given for a
slot does not pass its check, or the node cannot be made of the full record. -/
def Refused (s : Store) (p : Plan) (input : Input) (choose : ObjectId → Store → Attempt Node) (failure : Failure) :
    Prop :=
  (unknownSlot? p input).isSome = true ∨
    (∃ entry ∈ p.layout, s.checkSlot p.kind entry.1 entry.2 (input.read entry.1) = .error failure) ∨
    ∃ m base t, Filling s p input p.layout.names m base true t ∧
      (choose s.size t = .error failure ∨ t.attachable p s.size = .error failure)

/-- Fills slots, chooses the node and attaches its children. -/
def fillNode (p : Plan) (input : Input) (choose : ObjectId → Store → Attempt Node) : Building ObjectId := do
  let slots ← makeSlots p input
  let n ← Building.read (choose slots)
  attach p n

/-- A call that fails: at most some objects are linked to a new one, and nothing happens at all if nothing hides what the
record of slots extends. -/
structure Fails (s : Store) (p : Plan) (input : Input) (choose : ObjectId → Store → Attempt Node) (failure : Failure)
    (t : Store) : Prop where
  grown : ∃ q cs, s.Grown t q cs
  recorded : ∀ id : Nat, t.recorded? id = s.recorded? id
  same : input.Unshadowed s p.layout → t = s
  refused : p.layout.has baseName = false → s.Refused p input choose failure

/-- What is left of a failure is nothing, or all that was done before it. -/
theorem fails_of_fillNode (hs : s.Grounded) (hc : s.Closed) {choose : ObjectId → Store → Attempt Node}
    {failure : Failure} {q : ObjectId} {cs : List ObjectId} (hrun : fillNode p input choose s = (.error failure, t))
    (hgrown : s.Grown t q cs) (hrecorded : ∀ id : Nat, t.recorded? id = s.recorded? id)
    (hold : input.Unshadowed s p.layout → s.Extends t)
    (hcause : p.layout.has baseName = false → s.Refused p input choose failure) :
    ∃ failure u, (fillNode p input choose).forgetting s = (.error failure, u) ∧ s.Fails p input choose failure u := by
  obtain ⟨u, hforget, rfl | rfl, hsame⟩ := forgetting_error hrun
  · exact ⟨failure, u, hforget, ⟨0, [], (Fresh.refl hs hc).grown⟩, fun _ => rfl, fun _ => rfl, hcause⟩
  · exact ⟨failure, u, hforget, ⟨q, cs, hgrown⟩, hrecorded, fun hu => hsame (hold hu), hcause⟩

theorem fillNode_spec (hs : s.Grounded) (hc : s.Closed) (hinput : ∀ slot, (input.read slot).Within s.size)
    (hh : input.Harmless s p.layout) {choose : ObjectId → Store → Attempt Node}
    (hchoose : ∀ {m base t n}, Filling s p input p.layout.names m base true t → choose s.size t = .ok n → s.Fits p n t) :
    (∃ id n rows u, (fillNode p input choose).forgetting s = (.ok id, u) ∧ s.Made p input id n rows u ∧
        ∃ m base t, Filling s p input p.layout.names m base true t ∧ choose s.size t = .ok n ∧ t.Keeps u) ∨
      ∃ failure u, (fillNode p input choose).forgetting s = (.error failure, u) ∧
        s.Fails p input choose failure u := by
  rcases makeSlots_spec hs hc hinput hh with ⟨m, base, t, hmake, ht⟩ | ⟨failure, t, hmake, ht, hcause⟩
  · cases hn : choose s.size t with
    | error failure =>
      have hfresh := ht.fresh hs hc
      have hread : Building.read (choose s.size) t = (.error failure, t) := by rw [Building.read, hn]
      have hrun : fillNode p input choose s = (.error failure, t) := by
        rw [fillNode, Building.bind_ok hmake, Building.bind_error hread]
      exact .inr (fails_of_fillNode hs hc hrun hfresh.grown hfresh.recorded? (fun _ => ht.old)
        fun _ => .inr (.inr ⟨m, base, t, ht, .inl hn⟩))
    | ok n =>
      have hfit := hchoose ht hn
      have hread : Building.read (choose s.size) t = (.ok n, t) := by rw [Building.read, hn]
      have hrun : fillNode p input choose s = attach p n t := by
        rw [fillNode, Building.bind_ok hmake, Building.bind_ok hread]
      rcases attach_spec hs hc ht hfit.slots hfit.plain hfit.layout hfit.variant hfit.file with
        ⟨rows, u, hattach, hmade, hk⟩ | ⟨failure, q, cs, u, hattach, hgrown, hrecorded, hcause⟩
      · exact .inl ⟨t.size, n, rows, u, forgetting_ok (hrun.trans hattach), hmade, m, base, t, ht, hn, hk⟩
      · refine .inr (fails_of_fillNode hs hc (hrun.trans hattach) hgrown hrecorded (fun hu => ?_) fun hbase => ?_)
        · rw [(hcause hu).2]
          exact ht.old
        · have hattachable := (hcause (Input.unshadowed_of_plain hbase input)).1
          exact .inr (.inr ⟨m, base, t, ht, .inr hattachable⟩)
  · refine .inr (fails_of_fillNode hs hc (Building.bind_error hmake) ht.grown ht.recorded? (fun _ => ht.old) fun hbase => ?_)
    exact (hcause.resolve_left (by rw [hbase]; exact Bool.false_ne_true)).imp_right .inl

/-! ## Nodes -/

/-- The node that `create` makes of a record of slots. -/
def plainNode (v : Variant) (slots : ObjectId) (_ : Store) : Attempt Node := .ok { variant := v, slots }

theorem plainNode_fits {v : Variant} (hv : v.self < s.size) {n : Node} (h : plainNode v s.size t = .ok n) :
    s.Fits v.plan n t := by
  cases h
  exact ⟨rfl, rfl, rfl, hv, nofun⟩

theorem create_eq (v : Variant) (input : Input) (h : v.isSourceFile = false) :
    create v input = (fillNode v.plan input (plainNode v)).forgetting := by
  rw [create_def, h]
  rfl

/-- What making a node comes to. -/
theorem create_spec (hs : s.Grounded) (hc : s.Closed) {v : Variant} (hv : v.self < s.size)
    (hinput : ∀ slot, (input.read slot).Within s.size) (hh : input.Harmless s v.layout) :
    (∃ id n rows u, create v input s = (.ok id, u) ∧ s.Made v.plan input id n rows u ∧ n.variant = v ∧ n.file = none) ∨
      ∃ failure u, create v input s = (.error failure, u) ∧
        (v.isSourceFile = true ∧ u = s ∨ s.Fails v.plan input (plainNode v) failure u) := by
  cases hfile : v.isSourceFile with
  | true =>
    refine .inr ⟨.ofTree (.malformed .sourceFileVariant (.text v.name)), s, ?_, .inl ⟨rfl, rfl⟩⟩
    rw [create_def, hfile]
    rfl
  | false =>
    rw [create_eq v input hfile]
    rcases fillNode_spec hs hc hinput hh fun _ => plainNode_fits hv with
      ⟨id, n, rows, u, hrun, hmade, _, _, _, _, hn, _⟩ | ⟨failure, u, hrun, hfails⟩
    · cases hn
      exact .inl ⟨id, _, rows, u, hrun, hmade, rfl, rfl⟩
    · exact .inr ⟨failure, u, hrun, .inr hfails⟩

/-! ## Source files -/

/-- The source file that is made of a record of slots. -/
def fileNode (v : Variant) (endOfFileKind : Value) (source : Source) (slots : ObjectId) (s : Store) : Attempt Node :=
  match s.endOfFileToken? endOfFileKind slots with
  | some id => .ok { variant := v, slots, file := some { source, endOfFile := id } }
  | none => refuse .noEndOfFileToken v.plan.kind

theorem addFile_eq (v : Variant) (kind : Value) (source : Source) (input : Input) :
    addFile v kind source input = (fillNode v.plan input (fileNode v kind source)).forgetting := by
  refine (addFileBy_def v.plan v [] kind source input).trans
    (congrArg Building.forgetting (bind_congr fun slots => funext fun s => ?_))
  cases h : s.endOfFileToken? kind slots with
  | none =>
    have hnode : Building.read (fileNode v kind source slots) s =
        (.error (.ofTree (.malformed .noEndOfFileToken v.plan.kind)), s) := by rw [Building.read, fileNode, h]; rfl
    rw [Building.bind_error hnode]
    refine Building.bind_error ?_
    rw [Building.read, h]
    rfl
  | some id =>
    have hnode : Building.read (fileNode v kind source slots) s =
        (.ok { variant := v, slots, file := some { source, endOfFile := id } }, s) := by
      rw [Building.read, fileNode, h]
    rw [Building.bind_ok hnode]
    refine Building.bind_ok ?_
    rw [Building.read, h]
    rfl

/-- The end-of-file token of a record of slots is a token of the kind. -/
theorem endOfFileToken?_eq_some {kind : Value} {slots id : ObjectId} : s.endOfFileToken? kind slots = some id ↔
    s.lookup slots endOfFileSlot = .object id ∧ ∃ t, s.token? id = some t ∧ t.kind.same kind = true := by
  rw [endOfFileToken?]
  split
  · rename_i id' hlookup
    rw [hlookup]
    constructor
    · intro h
      split at h
      · rename_i hany
        cases h
        exact ⟨rfl, (Option.any_eq_true _ _).mp hany⟩
      · cases h
    · rintro ⟨heq, htoken⟩
      cases heq
      rw [if_pos ((Option.any_eq_true _ _).mpr htoken)]
  · rename_i hno
    exact iff_of_false (fun h => by cases h) fun ⟨hlookup, _⟩ => hno id hlookup

theorem lt_size_of_endOfFileToken? {kind : Value} {slots id : ObjectId} (h : s.endOfFileToken? kind slots = some id) :
    id < s.size := by
  obtain ⟨_, t, ht, _⟩ := endOfFileToken?_eq_some.mp h
  exact lt_size_of_token? ht

/-- It is found again in every later store. -/
theorem Grounded.endOfFileToken?_keeps (hs : s.Grounded) (hk : s.Keeps t) {kind : Value} {slots id : ObjectId}
    (hslots : slots < s.size) (h : s.endOfFileToken? kind slots = some id) : t.endOfFileToken? kind slots = some id := by
  obtain ⟨hlookup, tok, htok, hkind⟩ := endOfFileToken?_eq_some.mp h
  refine endOfFileToken?_eq_some.mpr ⟨?_, tok, ?_, hkind⟩
  · rw [hs.lookup_keeps hk hslots (by decide), hlookup]
  · rw [hs.token?_keeps hk (lt_size_of_token? htok), htok]

theorem fileNode_eq_ok {v : Variant} {kind : Value} {source : Source} {slots : ObjectId} {n : Node}
    (h : fileNode v kind source slots t = .ok n) : ∃ id, t.endOfFileToken? kind slots = some id ∧
      n = { variant := v, slots, file := some { source, endOfFile := id } } := by
  rw [fileNode] at h
  cases hid : t.endOfFileToken? kind slots with
  | none => rw [hid] at h; cases h
  | some id =>
    rw [hid] at h
    cases h
    exact ⟨id, rfl, rfl⟩

theorem fileNode_fits {v : Variant} (hv : v.self < s.size) {kind : Value} {source : Source} {n : Node}
    (h : fileNode v kind source s.size t = .ok n) : s.Fits v.plan n t := by
  obtain ⟨id, hid, rfl⟩ := fileNode_eq_ok h
  refine ⟨rfl, rfl, rfl, hv, ?_⟩
  rintro f ⟨⟩
  exact lt_size_of_endOfFileToken? hid

/-- What making a source file comes to before it is recorded. -/
theorem addFile_spec (hs : s.Grounded) (hc : s.Closed) {v : Variant} (hv : v.self < s.size) (kind : Value)
    (source : Source) (hinput : ∀ slot, (input.read slot).Within s.size) (hh : input.Harmless s v.layout) :
    (∃ id n rows u, addFile v kind source input s = (.ok id, u) ∧ s.Made v.plan input id n rows u ∧ n.variant = v ∧
        ∃ endOfFile, n.file = some { source, endOfFile } ∧ u.endOfFileToken? kind n.slots = some endOfFile) ∨
      ∃ failure u, addFile v kind source input s = (.error failure, u) ∧
        s.Fails v.plan input (fileNode v kind source) failure u := by
  rw [addFile_eq]
  rcases fillNode_spec hs hc hinput hh fun _ => fileNode_fits hv with
    ⟨id, n, rows, u, hrun, hmade, _, _, t, hfill, hn, hk⟩ | hfails
  · obtain ⟨endOfFile, hend, rfl⟩ := fileNode_eq_ok hn
    exact .inl ⟨id, _, rows, u, hrun, hmade, rfl, endOfFile, rfl,
      (hfill.grounded hs).endOfFileToken?_keeps hk hfill.lt_size hend⟩
  · exact .inr hfails

/-! ## Recorded roots -/

theorem cell?_recordRoot (s : Store) (root : ObjectId) (nodes : List ObjectId) (id : Nat) :
    (s.recordRoot root nodes).cell? id =
      (s.cell? id).map fun c => if id ∈ nodes then { c with root := some root } else c := by
  induction nodes generalizing s with
  | nil => simp [recordRoot]
  | cons node nodes ih =>
    show ((s.modify node _).recordRoot root nodes).cell? id = _
    rw [ih, cell?_modify]
    cases s.cell? id with
    | none => simp
    | some c =>
      by_cases hnode : node = id
      · subst hnode
        by_cases hmem : node ∈ nodes <;> simp [hmem]
      · simp [hnode, Ne.symm hnode]

@[simp] theorem size_recordRoot (s : Store) (root : ObjectId) (nodes : List ObjectId) :
    (s.recordRoot root nodes).size = s.size := by
  induction nodes generalizing s with
  | nil => rfl
  | cons node nodes ih => exact (ih _).trans (size_modify ..)

/-- Recording a source file leaves everything else of a cell as it was. -/
theorem get_recordRoot {α : Type} (get : Option Cell → α) {root : ObjectId}
    (hget : ∀ c : Cell, get (some { c with root := some root }) = get (some c)) (s : Store) (nodes : List ObjectId)
    (id : Nat) : get ((s.recordRoot root nodes).cell? id) = get (s.cell? id) := by
  rw [cell?_recordRoot]
  cases s.cell? id with
  | none => rfl
  | some c =>
    rw [Option.map_some]
    split
    · exact hget c
    · rfl

section recordRoot

variable (s : Store) (root : ObjectId) (nodes : List ObjectId) (id : Nat)

theorem object?_recordRoot : (s.recordRoot root nodes).object? id = s.object? id :=
  get_recordRoot (·.map Cell.object) (fun _ => rfl) s nodes id

theorem base?_recordRoot : (s.recordRoot root nodes).base? id = s.base? id :=
  get_recordRoot (·.bind Cell.base) (fun _ => rfl) s nodes id

theorem parent?_recordRoot : (s.recordRoot root nodes).parent? id = s.parent? id :=
  get_recordRoot (·.bind Cell.parent) (fun _ => rfl) s nodes id

theorem isOwned_recordRoot : (s.recordRoot root nodes).isOwned id = s.isOwned id :=
  get_recordRoot (·.any Cell.owned) (fun _ => rfl) s nodes id

theorem isNode_recordRoot : (s.recordRoot root nodes).isNode id = s.isNode id :=
  isA_congr (size_recordRoot ..) (fun id => base?_recordRoot s root nodes id) .node id

theorem keeps_recordRoot : s.Keeps (s.recordRoot root nodes) :=
  ⟨by rw [size_recordRoot], fun {id} _ => object?_recordRoot s root nodes id,
    fun {id} _ => base?_recordRoot s root nodes id⟩

end recordRoot

theorem recorded?_recordRoot (s : Store) (root : ObjectId) {nodes : List ObjectId} (hnodes : ∀ id ∈ nodes, id < s.size)
    (id : Nat) : (s.recordRoot root nodes).recorded? id = if id ∈ nodes then some root else s.recorded? id := by
  rw [recorded?, recorded?, cell?_recordRoot]
  split
  · rename_i hmem
    obtain ⟨c, hc⟩ := exists_cell (hnodes id hmem)
    simp [hc]
  · cases s.cell? id <;> rfl

theorem Grown.recordRoot {q : ObjectId} {cs : List ObjectId} (h : s.Grown t q cs) (root : ObjectId)
    (nodes : List ObjectId) : s.Grown (t.recordRoot root nodes) q cs := by
  have hk := keeps_recordRoot t root nodes
  have hnode : ∀ id : Nat, (t.recordRoot root nodes).isNode id = t.isNode id := isNode_recordRoot t root nodes
  exact
    { keeps := h.keeps.trans hk
      grounded := h.grounded.of_keeps hk fun hge hlt => by rw [size_recordRoot] at hlt; omega
      closed := ⟨fun {id o} ho => by
        rw [object?_recordRoot] at ho
        rw [size_recordRoot]
        exact h.closed.refers ho⟩
      new := fun hne => by rw [size_recordRoot]; exact h.new hne
      below := h.below
      nodes := fun c hc hn => by
        rw [hnode] at hn
        rw [h.grounded.isSourceFile_keeps hk (lt_size_of_isNode hn)]
        exact h.nodes c hc hn
      others := fun c hc hn => h.others c hc (by rwa [hnode] at hn)
      parent := fun id => by rw [parent?_recordRoot, hnode, h.parent]
      owned := fun id => by rw [isOwned_recordRoot, hnode, h.owned] }

/-! ## The nodes below a node -/

/-- A node stands among the children of another one. -/
def HasChild (s : Store) (p c : ObjectId) : Prop := ∃ children, s.childNodes p = .ok children ∧ c ∈ children

theorem Shows.hasChild (hs : s.Grounded) {id : ObjectId} {n : Node} {rows : List Row} (h : s.Shows id n rows)
    {c : ObjectId} : s.HasChild id c ↔ c ∈ rows.flatMap Row.children ∧ s.isNode c = true := by
  rw [← List.mem_filter]
  constructor
  · rintro ⟨children, hchildren, hc⟩
    rw [h.childNodes hs] at hchildren
    cases hchildren
    exact hc
  · exact fun hc => ⟨_, h.childNodes hs, hc⟩

/-- Lists what is below a child after what is below later ones, unless a failure was met there. -/
def gather (below : ObjectId → List ObjectId × Option Failure) (child : ObjectId)
    (acc : List ObjectId × Option Failure) : List ObjectId × Option Failure :=
  match acc.2 with
  | some _ => acc
  | none => (acc.1 ++ (below child).1, (below child).2)

theorem nodesFrom_succ {depth : Nat} {id : ObjectId} {children : List ObjectId} (h : s.childNodes id = .ok children) :
    s.nodesFrom (depth + 1) id = children.foldr (gather (s.nodesFrom depth)) ([id], none) := by
  rw [nodesFrom, h]
  refine congrArg (fun step => children.foldr step ([id], none)) (funext fun child => funext fun acc => ?_)
  rcases acc with ⟨before, _ | f⟩ <;> rfl

theorem foldr_gather {below : ObjectId → List ObjectId × Option Failure} {children first nodes : List ObjectId}
    (h : children.foldr (gather below) (first, none) = (nodes, none)) :
    (∀ child ∈ children, (below child).2 = none) ∧
      ∀ x, x ∈ nodes ↔ x ∈ first ∨ ∃ child ∈ children, x ∈ (below child).1 := by
  induction children generalizing nodes with
  | nil =>
    cases h
    simp
  | cons child children ih =>
    rw [List.foldr_cons] at h
    rcases hrest : children.foldr (gather below) (first, none) with ⟨before, failure⟩
    rw [hrest] at h
    cases failure with
    | some f => cases h
    | none =>
      obtain ⟨hnone, hmem⟩ := ih hrest
      simp only [gather, Prod.mk.injEq] at h
      obtain ⟨rfl, hchild⟩ := h
      refine ⟨?_, fun x => ?_⟩
      · rintro c (_ | ⟨_, hc⟩)
        · exact hchild
        · exact hnone c hc
      · rw [List.mem_append, hmem, or_assoc]
        simp only [List.mem_cons, exists_eq_or_imp]
        exact or_congr_right or_comm

/-- The nodes that are listed are those that can be reached. -/
theorem mem_nodesFrom {depth : Nat} {id : ObjectId} {nodes : List ObjectId}
    (h : s.nodesFrom depth id = (nodes, none)) (x : ObjectId) : x ∈ nodes ↔ Relation.ReflTransGen s.HasChild id x := by
  induction depth generalizing id nodes with
  | zero => cases h
  | succ depth ih =>
    cases hchildren : s.childNodes id with
    | error f =>
      rw [nodesFrom, hchildren] at h
      cases h
    | ok children =>
      rw [nodesFrom_succ hchildren] at h
      obtain ⟨hnone, hmem⟩ := foldr_gather h
      have hbelow : ∀ child ∈ children, (x ∈ (s.nodesFrom depth child).1 ↔ Relation.ReflTransGen s.HasChild child x) :=
        fun child hchild => ih (Prod.ext rfl (hnone child hchild))
      rw [hmem, List.mem_singleton, Relation.ReflTransGen.cases_head_iff, eq_comm]
      refine or_congr_right ⟨?_, ?_⟩
      · rintro ⟨child, hchild, hx⟩
        exact ⟨child, ⟨children, hchildren, hchild⟩, (hbelow child hchild).mp hx⟩
      · rintro ⟨child, ⟨children', hchildren', hchild⟩, hx⟩
        rw [hchildren] at hchildren'
        cases hchildren'
        exact ⟨child, hchild, (hbelow child hchild).mpr hx⟩

/-- Nodes are listed without a failure if all of them can be read and children have smaller numbers. -/
theorem nodesFrom_none {id : Nat} {depth : Nat} (hdepth : id < depth)
    (hread : ∀ x : Nat, Relation.ReflTransGen s.HasChild id x →
      ∃ children, s.childNodes x = .ok children ∧ ∀ c ∈ children, c < x) : (s.nodesFrom depth id).2 = none := by
  induction depth generalizing id with
  | zero => omega
  | succ depth ih =>
    obtain ⟨children, hchildren, hlt⟩ := hread id .refl
    have hbelow : ∀ child ∈ children, (s.nodesFrom depth child).2 = none := fun child hchild =>
      ih (Nat.lt_of_lt_of_le (hlt child hchild) (by omega)) fun x hx => hread x (.head ⟨children, hchildren, hchild⟩ hx)
    rw [nodesFrom_succ hchildren]
    clear hchildren hlt
    induction children with
    | nil => rfl
    | cons child children ihc =>
      rw [List.foldr_cons, gather, ihc fun c hc => hbelow c (List.mem_cons_of_mem _ hc)]
      exact hbelow child List.mem_cons_self

/-- What making a source file comes to. It fails before anything is recorded, or where a node below cannot be read. -/
theorem createSourceFile_spec (hs : s.Grounded) (hc : s.Closed) {g : Grammar} (hg : g.sourceFile.self < s.size)
    (source : Source) (hinput : ∀ slot, (input.read slot).Within s.size) (hh : input.Harmless s g.sourceFile.layout) :
    (∃ id n rows u nodes, createSourceFile g source input s = (.ok id, u.recordRoot id nodes) ∧
        s.Made g.sourceFile.plan input id n rows u ∧ n.variant = g.sourceFile ∧
        (∃ endOfFile, n.file = some { source, endOfFile } ∧
          u.endOfFileToken? (.ofNat g.endOfFileKind) n.slots = some endOfFile) ∧ u.nodesOf id = (nodes, none)) ∨
      (∃ failure u, createSourceFile g source input s = (.error failure, u) ∧
        s.Fails g.sourceFile.plan input (fileNode g.sourceFile (.ofNat g.endOfFileKind) source) failure u) ∨
      ∃ failure id n rows u nodes, createSourceFile g source input s = (.error failure, u.recordRoot id nodes) ∧
        s.Made g.sourceFile.plan input id n rows u ∧ u.nodesOf id = (nodes, some failure) := by
  rcases addFile_spec hs hc hg (.ofNat g.endOfFileKind) source hinput hh with
    ⟨id, n, rows, u, hadd, hmade, hvariant, hfile⟩ | ⟨failure, u, hadd, hfails⟩
  · rcases hnodes : u.nodesOf id with ⟨nodes, _ | failure⟩
    · have hrecord : recordRoots id u = (.ok (), u.recordRoot id nodes) := by rw [recordRoots_def, hnodes]; rfl
      refine .inl ⟨id, n, rows, u, nodes, ?_, hmade, hvariant, hfile, hnodes⟩
      rw [createSourceFile_def, Building.bind_ok hadd, Building.bind_ok hrecord]
      rfl
    · have hrecord : recordRoots id u = (.error failure, u.recordRoot id nodes) := by rw [recordRoots_def, hnodes]; rfl
      refine .inr (.inr ⟨failure, id, n, rows, u, nodes, ?_, hmade, hnodes⟩)
      rw [createSourceFile_def, Building.bind_ok hadd, Building.bind_error hrecord]
  · exact .inr (.inl ⟨failure, u, Building.bind_error hadd, hfails⟩)

end LosslessSyntax.Store
