import LosslessSyntax.Proofs.Indifference
import LosslessSyntax.Proofs.Numbering
import LosslessSyntax.Proofs.Numerals

/-!
# Defining grammars

A value that has the shape of a definition is defined as a grammar if and only if its parts fit together
(`Definition.Consistent`): token names are distinct, slots have names that they may have, and what is named as source
file and as end-of-file token is declared. If not, it is refused for its tokens or for itself. In the tables of a
grammar, names, kinds and variants lead to each other (`Grammar.Realizes`).

* `Attempt.Settles` puts checks together, each of which finds a fault unless a condition holds.
* `Grammar.settles_define`, `Definition.IsHeld.readTrusting_eq`: the checks of a definition, and of reading one.
* `Grammar.realizes_of_define`: the tables. That a number leads to a variant rests on how numbers are written
  (`Number.index?_text`).
* `Session.defineGrammar_decided`: the whole call, with the slot names that are asked for afterwards.
-/

namespace LosslessSyntax

/-! ## Slot names -/

/-- A unit that can begin an identifier: a letter, an underscore or a dollar sign. -/
def BeginsIdentifier (u : UInt16) : Prop :=
  ('A'.toNat ≤ u.toNat ∧ u.toNat ≤ 'Z'.toNat) ∨ ('a'.toNat ≤ u.toNat ∧ u.toNat ≤ 'z'.toNat) ∨
    u.toNat = '_'.toNat ∨ u.toNat = '$'.toNat

/-- Such a unit, followed by more of them and by digits. -/
def IsIdentifier (t : Text) : Prop :=
  ∃ first rest, t = first :: rest ∧ BeginsIdentifier first ∧
    ∀ u ∈ rest, BeginsIdentifier u ∨ ('0'.toNat ≤ u.toNat ∧ u.toNat ≤ '9'.toNat)

theorem isIdentifierUnit_iff {u : UInt16} : isIdentifierUnit u = true ↔ BeginsIdentifier u := by
  simp only [isIdentifierUnit, Bool.or_eq_true, Bool.and_eq_true, decide_eq_true_eq, UInt16.le_iff_toNat_le, beq_iff_eq,
    ← UInt16.toNat_inj, or_assoc]
  exact Iff.rfl

theorem isSlotName_iff {t : Text} : isSlotName t = true ↔ IsIdentifier t := by
  cases t with
  | nil => exact iff_of_false Bool.false_ne_true fun ⟨_, _, h, _⟩ => by cases h
  | cons first rest =>
    rw [isSlotName, Bool.and_eq_true, isIdentifierUnit_iff, List.all_eq_true]
    simp only [Bool.or_eq_true, isIdentifierUnit_iff, Members.isDigit_iff]
    refine ⟨fun h => ⟨first, rest, rfl, h⟩, ?_⟩
    rintro ⟨_, _, heq, h⟩
    cases heq
    exact h

/-! ## Definitions that fit together -/

namespace Definition

/-- Texts and records of texts in all places; no record has a name twice, and there are as many node kinds as a list
can hold. -/
structure WellShaped (d : Definition) : Prop where
  tokens : ∃ names : List Text, d.tokens = names.map .text
  sourceFile : ∃ name, d.sourceFile = .text name
  endOfFile : ∃ name, d.endOfFile = .text name
  nodes : d.nodes.names.Nodup
  layouts : ∀ node ∈ d.nodes, node.2.names.Nodup ∧ ∀ slot ∈ node.2, slot.2 = Layout.one ∨ slot.2 = Layout.many
  count : d.nodes.length < Sequence.lengthBound

/-- Every slot of a layout has a name that it may have. -/
def NamesSlots (layout : Layout) : Prop := ∀ slot ∈ layout.names, IsIdentifier slot ∧ slot ≠ "parent"

/-- What has to fit together in a definition. -/
structure Consistent (d : Definition) : Prop where
  tokens : d.tokens.Nodup
  slots : ∀ node ∈ d.nodes, NamesSlots node.2
  sourceFile : ∃ node ∈ d.nodes, d.sourceFile = .text node.1 ∧ (("endOfFileToken" : Text), Value.text "one") ∈ node.2
  endOfFile : d.endOfFile ∈ d.tokens

end Definition

/-! ## Checks -/

/-- An attempt comes to a value if a condition holds, and finds a fault of the definition if not. -/
structure Attempt.Settles {α : Type} (x : Attempt α) (p : Prop) (a : α) : Prop where
  holds : p → x = .ok a
  fails : ¬ p → ∃ f, x = .error (.fault (.invalidDefinition f))

namespace Attempt.Settles

variable {α β : Type} {x : Attempt α} {p q : Prop} {a : α} {b : β}

theorem congr (h : x.Settles p a) (hpq : p ↔ q) : x.Settles q a :=
  ⟨fun hq => h.holds (hpq.mpr hq), fun hq => h.fails fun hp => hq (hpq.mp hp)⟩

theorem pass (a : α) : Attempt.Settles (.ok a) True a := ⟨fun _ => rfl, fun h => absurd trivial h⟩

theorem refuse (f : DefinitionFault) (a : α) : Attempt.Settles (.error (.fault (.invalidDefinition f))) False a :=
  ⟨fun h => h.elim, fun _ => ⟨f, rfl⟩⟩

theorem bind {f : α → Attempt β} (h : x.Settles p a) (hf : (f a).Settles q b) : (x >>= f).Settles (p ∧ q) b := by
  by_cases hp : p
  · rw [h.holds hp]
    exact hf.congr (and_iff_right hp).symm
  · refine ⟨fun hpq => absurd hpq.1 hp, fun _ => ?_⟩
    obtain ⟨fault, hfault⟩ := h.fails hp
    exact ⟨fault, by rw [hfault]; rfl⟩

theorem mapM {f : α → Attempt β} {p : α → Prop} {value : α → β} {as : List α}
    (h : ∀ a ∈ as, (f a).Settles (p a) (value a)) :
    (as.mapM f).Settles (∀ a ∈ as, p a) (as.map value) := by
  induction as with
  | nil => exact (pass []).congr (iff_of_true trivial (List.forall_mem_nil _))
  | cons a rest ih =>
    rw [List.mapM_cons, List.map_cons]
    have hrest := ih fun b hb => h b (List.mem_cons_of_mem _ hb)
    exact ((h a List.mem_cons_self).bind (hrest.bind (pass (value a :: rest.map value)))).congr (by
      rw [and_true, List.forall_mem_cons])

theorem forM {f : α → Attempt Unit} {p : α → Prop} {as : List α} (h : ∀ a ∈ as, (f a).Settles (p a) ()) :
    (as.forM f).Settles (∀ a ∈ as, p a) () := by
  induction as with
  | nil => exact (pass ()).congr (iff_of_true trivial (List.forall_mem_nil _))
  | cons a rest ih =>
    exact ((h a List.mem_cons_self).bind (ih fun b hb => h b (List.mem_cons_of_mem _ hb))).congr
      List.forall_mem_cons.symm

end Attempt.Settles

namespace Definition

variable {d : Definition}

theorem settles_checkSlots (node : Text) (layout : Layout) :
    (checkSlots node layout).Settles (NamesSlots layout) () := by
  rw [NamesSlots, Members.names, List.forall_mem_map]
  refine Attempt.Settles.forM fun slot _ => ?_
  dsimp only
  split
  · rename_i hname
    exact (Attempt.Settles.refuse _ _).congr
      (iff_of_false id fun h => by rw [isSlotName_iff.mpr h.1] at hname; exact Bool.false_ne_true hname)
  · rename_i hname
    split
    · rename_i hreserved
      exact (Attempt.Settles.refuse _ _).congr (iff_of_false id fun h => h.2 hreserved)
    · rename_i hreserved
      refine (Attempt.Settles.pass ()).congr (iff_of_true trivial ⟨isSlotName_iff.mp ?_, hreserved⟩)
      simpa using hname

end Definition

/-- What a layout declares of a slot is found by the name of the slot. -/
theorem Layout.arity?_eq_one {layout : Layout} (h : layout.names.Nodup) (slot : Text) :
    layout.arity? slot = some Layout.one ↔ (slot, Layout.one) ∈ layout := by
  rw [Layout.arity?]
  refine ⟨fun harity => Members.mem_of_get? ?_, fun hmem => by rw [Members.get?_of_mem h hmem]; rfl⟩
  cases hget : layout.get? slot with
  | none => rw [hget] at harity; cases harity
  | some value =>
    rw [hget] at harity
    cases value <;> cases harity
    rfl

/-- A name has an id in the registry of a list if and only if it is in the list. -/
theorem Registry.isSome_idOf? {s : Store} {names : List Value} {r : Registry} (h : ofNames s names = .ok r)
    (name : Value) : (r.idOf? name).isSome = true ↔ name ∈ names := by
  obtain ⟨hentries, hr, _⟩ := ofNames_ok h
  rw [Option.isSome_iff_exists]
  simp only [hr.idOf?_iff_mem, hentries, List.mk_mem_zipIdx_iff_getElem?]
  exact List.mem_iff_getElem?.symm

namespace Grammar

variable {s : Store} {self : ObjectId} {d : Definition} {g : Grammar}

/-- The variants of a definition stand at their kinds. -/
theorem getElem?_variantsOf (self : ObjectId) (d : Definition) (kind : Nat) : (variantsOf self d)[kind]? =
    d.nodes[kind]?.map fun node =>
      { self := variantId self kind, kind, name := node.1, layout := node.2,
        isSourceFile := Value.text node.1 = d.sourceFile } := by
  rw [variantsOf, List.getElem?_map, List.getElem?_zipIdx, Option.map_map]
  cases d.nodes[kind]? with
  | none => rfl
  | some node => simp

/-- What a variant of a definition is made from. -/
theorem of_mem_variantsOf {w : Variant} (h : w ∈ variantsOf self d) :
    d.nodes[w.kind]? = some (w.name, w.layout) ∧ w.self = variantId self w.kind ∧
      w.isSourceFile = decide (Value.text w.name = d.sourceFile) := by
  obtain ⟨kind, hkind⟩ := List.mem_iff_getElem?.mp h
  rw [getElem?_variantsOf, Option.map_eq_some_iff] at hkind
  obtain ⟨node, hnode, rfl⟩ := hkind
  exact ⟨hnode, rfl, rfl⟩

theorem exists_mem_variantsOf (self : ObjectId) {node : Text × Layout} (h : node ∈ d.nodes) :
    ∃ w ∈ variantsOf self d, w.name = node.1 ∧ w.layout = node.2 ∧
      w.isSourceFile = decide (Value.text node.1 = d.sourceFile) := by
  obtain ⟨kind, hkind⟩ := List.mem_iff_getElem?.mp h
  refine ⟨⟨variantId self kind, kind, node.1, node.2, Value.text node.1 = d.sourceFile⟩,
    List.mem_iff_getElem?.mpr ⟨kind, ?_⟩, rfl, rfl, rfl⟩
  rw [getElem?_variantsOf, hkind]
  rfl

/-- The variant of the source file has the name that the definition gives for it. -/
theorem of_find?_variantsOf {w : Variant} (h : (variantsOf self d).find? (·.isSourceFile) = some w) :
    (w.name, w.layout) ∈ d.nodes ∧ Value.text w.name = d.sourceFile := by
  obtain ⟨hnode, _, hsource⟩ := of_mem_variantsOf (List.mem_of_find?_eq_some h)
  have hfound : w.isSourceFile = true := List.find?_some h
  rw [hsource] at hfound
  exact ⟨List.mem_of_getElem? hnode, of_decide_eq_true hfound⟩

/-- Once kinds are numbered, a definition is accepted if and only if the rest of it fits together. -/
theorem settles_define (self : ObjectId) (hd : d.WellShaped) {tokenKinds nodeKinds : Registry}
    (htokens : Registry.ofNames s d.tokens = .ok tokenKinds)
    (hnodes : Registry.ofNames s (d.nodes.names.map .text) = .ok nodeKinds) :
    ∃ g, (define s self d).Settles ((∀ node ∈ d.nodes, Definition.NamesSlots node.2) ∧
      (∃ node ∈ d.nodes, d.sourceFile = .text node.1 ∧ (("endOfFileToken" : Text), Value.text "one") ∈ node.2) ∧
        d.endOfFile ∈ d.tokens) g := by
  have hslots : (d.nodes.forM fun node => Definition.checkSlots node.1 node.2).Settles
      (∀ node ∈ d.nodes, Definition.NamesSlots node.2) () :=
    Attempt.Settles.forM fun node _ => Definition.settles_checkSlots node.1 node.2
  obtain ⟨sourceName, hsourceName⟩ := hd.sourceFile
  obtain ⟨endName, hendName⟩ := hd.endOfFile
  rw [define, htokens, hnodes]
  simp only [Attempt.ok_bind]
  let blank : Grammar := ⟨self, tokenKinds, nodeKinds, variantsOf self d, .blank, 0⟩
  cases hfind : (variantsOf self d).find? (·.isSourceFile) with
  | none =>
    refine ⟨blank, hslots.bind ?_⟩
    rw [hsourceName]
    refine (Attempt.Settles.refuse (.undeclaredSourceFile sourceName) blank).congr (iff_of_false id ?_)
    rintro ⟨⟨node, hnode, heq, _⟩, _⟩
    obtain ⟨w, hw, _, _, hsource⟩ := exists_mem_variantsOf self hnode
    rw [hsourceName, heq, decide_eq_true rfl] at hsource
    exact List.find?_eq_none.mp hfind w hw hsource
  | some w =>
    obtain ⟨hmem, hname⟩ := of_find?_variantsOf hfind
    have harity := Layout.arity?_eq_one (hd.layouts _ hmem).1 endOfFileSlot
    -- No other node kind has the name of the source file.
    have hunique : ∀ node ∈ d.nodes, d.sourceFile = .text node.1 → node = (w.name, w.layout) := fun node hnode heq =>
      List.inj_on_of_nodup_map hd.nodes hnode hmem (Value.text.inj (heq.symm.trans hname.symm))
    have hend := Registry.isSome_idOf? htokens d.endOfFile
    by_cases hone : w.layout.arity? endOfFileSlot = some Layout.one
    · cases hkind : tokenKinds.idOf? d.endOfFile with
      | none =>
        refine ⟨blank, hslots.bind ?_⟩
        dsimp only
        rw [if_neg (not_not_intro hone), hendName]
        refine (Attempt.Settles.refuse (.undeclaredEndOfFile endName) blank).congr (iff_of_false id fun h => ?_)
        rw [← hendName, ← hend, hkind] at h
        cases h.2
      | some kind =>
        refine ⟨⟨self, tokenKinds, nodeKinds, variantsOf self d, w, kind⟩, hslots.bind ?_⟩
        dsimp only
        rw [if_neg (not_not_intro hone)]
        exact (Attempt.Settles.pass _).congr (iff_of_true trivial
          ⟨⟨_, hmem, hname.symm, harity.mp hone⟩, hend.mp (by rw [hkind]; rfl)⟩)
    · refine ⟨blank, hslots.bind ?_⟩
      dsimp only
      rw [if_pos hone]
      refine (Attempt.Settles.refuse (.noEndOfFileSlot w.name) blank).congr (iff_of_false id ?_)
      rintro ⟨⟨node, hnode, heq, hslot⟩, _⟩
      rw [hunique node hnode heq] at hslot
      exact hone (harity.mpr hslot)

/-- A definition is refused because of its tokens, or because the rest of it does not fit together. -/
theorem ofNames_tokens (hd : d.WellShaped) (s : Store) :
    (d.tokens.Nodup → ∃ r, Registry.ofNames s d.tokens = .ok r) ∧
      (¬ d.tokens.Nodup → ∃ f, Registry.ofNames s d.tokens = .error (.fault (.invalidRegistry f))) := by
  obtain ⟨names, hnames⟩ := hd.tokens
  have hregisters := Registry.registers_ofPairs s names.zipIdx
  rw [← Registry.zipIdx_map_text, ← hnames] at hregisters
  have hnodup : Registry.Distinct names.zipIdx ↔ d.tokens.Nodup := by
    rw [Registry.distinct_zipIdx, hnames, List.nodup_map_iff fun _ _ h => Value.text.inj h]
  rw [← hnodup]
  refine ⟨hregisters.accepted.mpr, fun hno => ?_⟩
  obtain ⟨f, hf, _⟩ := hregisters.refused hno
  exact ⟨f, hf⟩

/-- A definition with distinct tokens is accepted if and only if the rest of it fits together. -/
theorem settles_define_of_tokens (hd : d.WellShaped) (hnodup : d.tokens.Nodup) (s : Store) (self : ObjectId) :
    ∃ g, (define s self d).Settles d.Consistent g := by
  obtain ⟨tokenKinds, htokens⟩ := (ofNames_tokens hd s).1 hnodup
  have hregisters := Registry.registers_ofPairs s d.nodes.names.zipIdx
  obtain ⟨nodeKinds, hnodes⟩ := hregisters.accepted.mpr (Registry.distinct_zipIdx.mpr hd.nodes)
  rw [← Registry.zipIdx_map_text] at hnodes
  obtain ⟨g, hg⟩ := settles_define self hd htokens hnodes
  exact ⟨g, hg.congr ⟨fun ⟨hslots, hsource, hend⟩ => ⟨hnodup, hslots, hsource, hend⟩,
    fun h => ⟨h.slots, h.sourceFile, h.endOfFile⟩⟩⟩

end Grammar

/-! ## Reading definitions -/

namespace Definition

variable {s : Store} {input : Value} {d : Definition}

/-- A value holds a definition in the members of that name, and the layouts of its nodes in the members of those. -/
structure IsHeld (s : Store) (input : Value) (d : Definition) : Prop where
  tokens : ∃ tokens, s.member "tokens" input = .ok tokens ∧ s.mapped tokens = .ok (.ofList d.tokens)
  nodes : ∃ nodes, s.member "nodes" input = .ok nodes ∧ nodes.isMissing = false ∧
    (∀ entry ∈ s.listed nodes, entry.2.isMissing = false) ∧
    d.nodes = (s.listed nodes).map fun entry => (entry.1, s.listed entry.2)
  sourceFile : s.member "sourceFile" input = .ok d.sourceFile
  endOfFile : s.member "endOfFile" input = .ok d.endOfFile

theorem settles_layoutOf (node : Text) {v : Value} (hv : v.isMissing = false) :
    (layoutOf s node v).Settles (NamesSlots (s.listed v)) (s.listed v) := by
  rw [layoutOf, entriesOf, hv]
  exact ((settles_checkSlots node (s.listed v)).bind (.pass (s.listed v))).congr (and_true _).to_iff

/-- A definition with distinct tokens is read unless its slots have names that they may not have; repeated tokens are
noticed before anything else is read. -/
theorem IsHeld.readTrusting_eq (h : IsHeld s input d) : ∃ outcome : Attempt Definition,
    readTrusting s input = (do let _ ← Registry.ofNames s d.tokens; outcome) ∧
      outcome.Settles (∀ node ∈ d.nodes, NamesSlots node.2) d := by
  obtain ⟨tokens, htokens, hmapped⟩ := h.tokens
  obtain ⟨nodes, hmember, hpresent, hlayouts, hnodes⟩ := h.nodes
  let read : Attempt (Members Layout) := (s.listed nodes).mapM fun entry => do
    return (entry.1, ← layoutOf s entry.1 entry.2)
  have hread : read.Settles (∀ entry ∈ s.listed nodes, NamesSlots (s.listed entry.2)) d.nodes := by
    rw [hnodes]
    refine Attempt.Settles.mapM fun entry hentry => ?_
    exact ((settles_layoutOf entry.1 (hlayouts entry hentry)).bind (.pass (entry.1, s.listed entry.2))).congr
      (and_true _).to_iff
  have hslots : (∀ node ∈ d.nodes, NamesSlots node.2) ↔ ∀ entry ∈ s.listed nodes, NamesSlots (s.listed entry.2) := by
    rw [hnodes, List.forall_mem_map]
  refine ⟨do return { d with nodes := ← read }, ?_, ?_⟩
  · have hentries : entriesOf s nodes = .ok (s.listed nodes) := by rw [entriesOf, hpresent]; rfl
    have hlist : (do s.mapped (← s.member "tokens" input)) = .ok (.ofList d.tokens) := by
      rw [htokens]
      exact hmapped
    rw [readTrusting, hlist, hmember, h.sourceFile, h.endOfFile]
    simp only [Attempt.ofMisuse, Attempt.pure_eq_ok, Attempt.ok_bind, hentries, Registry.ofElements_ofList,
      Sequence.values_ofList]
    rfl
  · exact ((hread.bind (.pass d)).congr (and_true _).to_iff).congr hslots.symm

/-- A definition that fits together is read, and defined as it is read. -/
theorem IsHeld.define_of_consistent (h : IsHeld s input d) (hd : d.WellShaped) (hc : d.Consistent) :
    ∃ g, readTrusting s input = .ok d ∧ Grammar.define s s.size d = .ok g := by
  obtain ⟨r, htokens⟩ := (Grammar.ofNames_tokens hd s).1 hc.tokens
  obtain ⟨outcome, hread, hsettles⟩ := h.readTrusting_eq
  rw [htokens, Attempt.ok_bind, hsettles.holds hc.slots] at hread
  obtain ⟨g, hg⟩ := Grammar.settles_define_of_tokens hd hc.tokens s s.size
  exact ⟨g, hread, hg.holds hc⟩

/-- Any other definition is refused when it is read or when it is defined, because of its tokens or for itself. -/
theorem IsHeld.refused_of_not_consistent (h : IsHeld s input d) (hd : d.WellShaped) (hno : ¬ d.Consistent) :
    ∃ fault : Fault, fault.errorClass = (if d.tokens.Nodup then .invalidDefinition else .invalidRegistry) ∧
      (readTrusting s input = .error (.fault fault) ∨
        readTrusting s input = .ok d ∧ Grammar.define s s.size d = .error (.fault fault)) := by
  obtain ⟨outcome, hread, hsettles⟩ := h.readTrusting_eq
  by_cases hnodup : d.tokens.Nodup
  · rw [if_pos hnodup]
    obtain ⟨r, htokens⟩ := (Grammar.ofNames_tokens hd s).1 hnodup
    rw [htokens, Attempt.ok_bind] at hread
    by_cases hslots : ∀ node ∈ d.nodes, NamesSlots node.2
    · obtain ⟨g, hg⟩ := Grammar.settles_define_of_tokens hd hnodup s s.size
      obtain ⟨f, hf⟩ := hg.fails hno
      exact ⟨.invalidDefinition f, rfl, .inr ⟨hread.trans (hsettles.holds hslots), hf⟩⟩
    · obtain ⟨f, hf⟩ := hsettles.fails hslots
      exact ⟨.invalidDefinition f, rfl, .inl (hread.trans hf)⟩
  · rw [if_neg hnodup]
    obtain ⟨f, hf⟩ := (Grammar.ofNames_tokens hd s).2 hnodup
    rw [hf] at hread
    exact ⟨.invalidRegistry f, rfl, .inl hread⟩

end Definition

namespace Session

variable {σ : Session} {input : Value} {d : Definition} {g : Grammar}

theorem defineGrammar_unread {failure : Failure} (h : Definition.readTrusting σ.store input = .error failure) :
    defineGrammar input σ = (.error failure, σ) := by
  have hattempt : attempt (Definition.readTrusting σ.store input) σ = (.error failure, σ) := by
    rw [h]
    rfl
  rw [defineGrammar, bind_ok (get_run σ), bind_error hattempt]

theorem defineGrammar_read (h : Definition.readTrusting σ.store input = .ok d) :
    defineGrammar input σ = addGrammar d σ := by
  have hattempt : attempt (Definition.readTrusting σ.store input) σ = (.ok d, σ) := by
    rw [h]
    rfl
  rw [defineGrammar, bind_ok (get_run σ), bind_ok hattempt]

/-- Any other definition is refused by a session, and nothing is changed. -/
theorem defineGrammar_refused (hheld : d.IsHeld σ.store input) (hd : d.WellShaped) (hno : ¬ d.Consistent) :
    ∃ fault : Fault, defineGrammar input σ = (.error (.fault fault), σ) ∧
      fault.errorClass = if d.tokens.Nodup then .invalidDefinition else .invalidRegistry := by
  obtain ⟨fault, hclass, hfault⟩ := hheld.refused_of_not_consistent hd hno
  refine ⟨fault, ?_, hclass⟩
  rcases hfault with hread | ⟨hread, hdefine⟩
  · exact defineGrammar_unread hread
  · exact (defineGrammar_read hread).trans (addGrammar_refused hdefine)

end Session

/-! ## Tables -/

namespace Grammar

variable {s : Store} {self : ObjectId} {d : Definition} {g : Grammar}

/-- What a definition names is found in its tables. -/
theorem define_found (h : define s self d = .ok g) : (variantsOf self d).find? (·.isSourceFile) = some g.sourceFile ∧
    g.tokenKinds.idOf? d.endOfFile = some g.endOfFileKind := by
  obtain ⟨tokenKinds, _, h⟩ := Attempt.bind_eq_ok h
  obtain ⟨nodeKinds, _, h⟩ := Attempt.bind_eq_ok h
  obtain ⟨_, _, h⟩ := Attempt.bind_eq_ok h
  dsimp only at h
  cases hfind : (variantsOf self d).find? (·.isSourceFile) with
  | none =>
    rw [hfind] at h
    obtain ⟨_, _, h⟩ := Attempt.bind_eq_ok h
    cases h
  | some w =>
    rw [hfind] at h
    dsimp only at h
    split at h
    · cases h
    cases hend : tokenKinds.idOf? d.endOfFile with
    | none =>
      rw [hend] at h
      obtain ⟨_, _, h⟩ := Attempt.bind_eq_ok h
      cases h
    | some kind =>
      rw [hend] at h
      cases h
      exact ⟨rfl, hend⟩

/-- The tables of a grammar lead to each other, and to what its definition says. -/
structure Realizes (d : Definition) (g : Grammar) : Prop where
  variant_isOk : ∀ name, (∃ w, g.variant name = .ok w) ↔ (g.nodeKinds.idOf? name).isSome = true
  variant_eq : ∀ name w, g.variant name = .ok w → g.nodeKinds.idOf? name = some w.kind ∧ .text w.name = name
  variantOf_isOk : ∀ s (kind : Number), kind.IsBinary64 →
    ((∃ w, g.variantOf s (.number kind) = .ok w) ↔ (g.nodeKinds.nameOfValue? (.number kind)).isSome = true)
  variantOf_eq : ∀ s (kind : Number), kind.IsBinary64 → ∀ name, g.nodeKinds.nameOfValue? (.number kind) = some name →
    g.variantOf s (.number kind) = g.variant name
  variants : ∀ (kind : Nat) w, g.variants[kind]? = some w ↔ w.kind = kind ∧ ∃ name, g.variant name = .ok w
  sourceFile : g.sourceFile ∈ g.variants ∧ .text g.sourceFile.name = d.sourceFile
  isSourceFile : ∀ w ∈ g.variants, w.isSourceFile = true ↔ w = g.sourceFile
  tokenKind : ∀ name id, g.tokenKind name = .ok id ↔ g.tokenKinds.idOf? name = some id
  endOfFile : g.tokenKind d.endOfFile = .ok g.endOfFileKind
  layouts : ∀ w ∈ g.variants, (w.name, w.layout) ∈ d.nodes

/-- Variants stand at their kinds. -/
theorem getElem?_variants (h : define s self d = .ok g) {kind : Nat} {w : Variant} :
    g.variants[kind]? = some w ↔ w.kind = kind ∧ w ∈ g.variants := by
  rw [(define_ok h).2.2.1]
  refine ⟨fun hw => ⟨?_, List.mem_of_getElem? hw⟩, ?_⟩
  · rw [getElem?_variantsOf, Option.map_eq_some_iff] at hw
    obtain ⟨node, _, rfl⟩ := hw
    rfl
  · rintro ⟨rfl, hmem⟩
    obtain ⟨kind, hkind⟩ := List.mem_iff_getElem?.mp hmem
    have hw := hkind
    rw [getElem?_variantsOf, Option.map_eq_some_iff] at hw
    obtain ⟨node, _, rfl⟩ := hw
    exact hkind

/-- A variant is found by its name. -/
theorem variant_eq_ok (hd : d.WellShaped) (h : define s self d = .ok g) {name : Value} {w : Variant} :
    g.variant name = .ok w ↔ w ∈ g.variants ∧ .text w.name = name := by
  have hnames : (g.variants.map (·.name)).Nodup := by
    rw [(define_ok h).2.2.1, map_name_variantsOf]
    exact hd.nodes
  rw [variant]
  cases hfind : g.variants.find? (Value.text ·.name = name) with
  | none =>
    refine iff_of_false (fun h => by cases h) fun ⟨hmem, hname⟩ => ?_
    exact List.find?_eq_none.mp hfind w hmem (decide_eq_true hname)
  | some w' =>
    have hmem' := List.mem_of_find?_eq_some hfind
    have hname' : Value.text w'.name = name := by simpa using List.find?_some hfind
    refine ⟨fun heq => ?_, fun ⟨hmem, hname⟩ => ?_⟩
    · cases heq
      exact ⟨hmem', hname'⟩
    · rw [List.inj_on_of_nodup_map hnames hmem' hmem (Value.text.inj (hname'.trans hname.symm))]

/-- The id of a node kind is where its variant stands. -/
theorem idOf?_nodeKinds (h : define s self d = .ok g) {name : Value} {kind : Nat} :
    g.nodeKinds.idOf? name = some kind ↔ ∃ w ∈ g.variants, w.kind = kind ∧ .text w.name = name := by
  obtain ⟨_, hnodes, hvariants, _⟩ := define_ok h
  obtain ⟨hentries, hr, _⟩ := Registry.ofNames_ok hnodes
  rw [hr.idOf?_iff_mem, hentries, List.mk_mem_zipIdx_iff_getElem?, ← map_name_variantsOf self, ← hvariants,
    List.map_map, List.getElem?_map, Option.map_eq_some_iff]
  refine exists_congr fun w => ?_
  rw [getElem?_variants h, and_comm (a := w.kind = kind), and_assoc]
  rfl

/-- A variant is found by the number of its kind. -/
theorem variantOf_eq_ok (hd : d.WellShaped) (h : define s self d = .ok g) (t : Store) {kind : Number}
    (hkind : kind.IsBinary64) {w : Variant} :
    g.variantOf t (.number kind) = .ok w ↔ ∃ i : Nat, kind = .finite i ∧ g.variants[i]? = some w := by
  have hlength : g.variants.length = d.nodes.length := by
    rw [(define_ok h).2.2.1, variantsOf, List.length_map, List.length_zipIdx]
  have hfound : ∀ {w}, (Members.index? (Text.ofString kind.text)).bind (g.variants[·]?) = some w ↔
      ∃ i : Nat, kind = .finite i ∧ g.variants[i]? = some w := by
    intro w
    rw [Option.bind_eq_some_iff]
    refine exists_congr fun i => ?_
    rw [Number.index?_text hkind, and_assoc]
    refine and_congr_right fun _ => and_iff_right_of_imp fun hget => ?_
    -- A list never has so many items that their places are no indices.
    have hlt := (List.getElem?_eq_some_iff.mp hget).1
    have hcount := hd.count
    rw [Sequence.lengthBound] at hcount
    omega
  rw [← hfound]
  have htext : Attempt.ofMisuse (t.text (.number kind)) = .ok (Text.ofString kind.text) := rfl
  rw [variantOf, htext, Attempt.ok_bind]
  cases (Members.index? (Text.ofString kind.text)).bind (g.variants[·]?) with
  | some w' => exact ⟨fun heq => by cases heq; rfl, fun heq => by cases heq; rfl⟩
  | none =>
    refine iff_of_false (fun heq => ?_) fun heq => by cases heq
    dsimp only at heq
    split at heq <;> cases heq

/-- The name of a kind is that of the variant which stands at its number. -/
theorem nameOfValue?_nodeKinds (hd : d.WellShaped) (h : define s self d = .ok g) {kind : Number} {name : Value} :
    g.nodeKinds.nameOfValue? (.number kind) = some name ↔
      ∃ (i : Nat) (w : Variant), kind = .finite i ∧ g.variants[i]? = some w ∧ g.variant name = .ok w := by
  obtain ⟨_, hnodes, _⟩ := define_ok h
  rw [Registry.nameOfValue?_number (Registry.ofNames_ok hnodes).2.1]
  refine exists_congr fun i => ?_
  rw [idOf?_nodeKinds h]
  simp only [getElem?_variants h, variant_eq_ok hd h]
  constructor
  · rintro ⟨hkind, w, hw, hi, hname⟩
    exact ⟨w, hkind, ⟨hi, hw⟩, hw, hname⟩
  · rintro ⟨w, hkind, ⟨hi, hw⟩, _, hname⟩
    exact ⟨hkind, w, hw, hi, hname⟩

theorem realizes_of_define (hd : d.WellShaped) (h : define s self d = .ok g) : g.Realizes d := by
  obtain ⟨_, _, hvariants, _⟩ := define_ok h
  obtain ⟨hsource, hend⟩ := define_found h
  have hsourceMem : g.sourceFile ∈ g.variants := hvariants ▸ List.mem_of_find?_eq_some hsource
  have hsourceName := (of_find?_variantsOf hsource).2
  have hmem : ∀ w ∈ g.variants, d.nodes[w.kind]? = some (w.name, w.layout) ∧ w.self = variantId self w.kind ∧
      w.isSourceFile = decide (Value.text w.name = d.sourceFile) := by
    rw [hvariants]
    exact fun w => of_mem_variantsOf
  refine ⟨fun name => ?_, fun name w hw => ?_, fun t kind hkind => ?_, fun t kind hkind name hname => ?_,
    fun kind w => ?_, ⟨hsourceMem, hsourceName⟩, fun w hw => ?_, fun name id => ?_, ?_, fun w hw => ?_⟩
  · rw [Option.isSome_iff_exists]
    simp only [variant_eq_ok hd h, idOf?_nodeKinds h]
    constructor
    · rintro ⟨w, hw, hname⟩
      exact ⟨w.kind, w, hw, rfl, hname⟩
    · rintro ⟨_, w, hw, _, hname⟩
      exact ⟨w, hw, hname⟩
  · rw [variant_eq_ok hd h] at hw
    exact ⟨(idOf?_nodeKinds h).mpr ⟨w, hw.1, rfl, hw.2⟩, hw.2⟩
  · rw [Option.isSome_iff_exists]
    simp only [variantOf_eq_ok hd h t hkind, nameOfValue?_nodeKinds hd h]
    constructor
    · rintro ⟨w, i, hi, hget⟩
      exact ⟨.text w.name, i, w, hi, hget, (variant_eq_ok hd h).mpr ⟨List.mem_of_getElem? hget, rfl⟩⟩
    · rintro ⟨_, i, w, hi, hget, _⟩
      exact ⟨w, i, hi, hget⟩
  · obtain ⟨i, w, hi, hget, hw⟩ := (nameOfValue?_nodeKinds hd h).mp hname
    rw [hw]
    exact (variantOf_eq_ok hd h t hkind).mpr ⟨i, hi, hget⟩
  · rw [getElem?_variants h]
    simp only [variant_eq_ok hd h, exists_and_left, exists_eq', and_true]
  · rw [(hmem w hw).2.2, decide_eq_true_eq]
    refine ⟨fun hname => ?_, fun heq => heq ▸ hsourceName⟩
    have hfound := (variant_eq_ok hd h).mpr ⟨hw, hname⟩
    rw [(variant_eq_ok hd h).mpr ⟨hsourceMem, hsourceName⟩] at hfound
    exact (Except.ok.inj hfound).symm
  · rw [tokenKind]
    cases g.tokenKinds.idOf? name with
    | none => exact iff_of_false (fun h => by cases h) fun h => by cases h
    | some id' => exact ⟨fun h => by cases h; rfl, fun h => by cases h; rfl⟩
  · rw [tokenKind, hend]
  · exact List.mem_of_getElem? (hmem w hw).1

end Grammar

/-! ## Slot names of variants -/

theorem Grammar.getElem?_flatMap_pair {α β : Type} (f g : α → β) (as : List α) (i : Nat) :
    (as.flatMap fun a => [f a, g a])[2 * i]? = as[i]?.map f ∧
      (as.flatMap fun a => [f a, g a])[2 * i + 1]? = as[i]?.map g := by
  induction as generalizing i with
  | nil => exact ⟨rfl, rfl⟩
  | cons a rest ih =>
    cases i with
    | zero => exact ⟨rfl, rfl⟩
    | succ i => exact ih i

namespace Store

variable {s : Store} {d : Definition} {g : Grammar}

theorem object?_addAll (s : Store) (os : List Object) (i : Nat) : (s.addAll os).object? (s.size + i) = os[i]? := by
  rw [object?, cell?_addAll, if_neg (by omega), Nat.add_sub_cancel_left, Option.map_map]
  exact Option.map_id_apply

/-- A store to which a grammar was added has its variants and their layouts, and keeps nothing beside them yet. -/
theorem object?_variant (h : Grammar.define s s.size d = .ok g) {w : Variant} (hw : w ∈ g.variants) :
    (s.addAll g.objects).object? w.self = some (.variant w) ∧
      (s.addAll g.objects).object? (w.self + 1) = some (.record w.layout true) ∧
      ((s.addAll g.objects).kept w.self).slotNames = none := by
  have hself : w.self = s.size + (2 * w.kind + 3) := by
    have hmem := hw
    rw [(Grammar.define_ok h).2.2.1] at hmem
    rw [(Grammar.of_mem_variantsOf hmem).2.1, Grammar.variantId, Nat.add_assoc, Nat.add_comm 3]
  have hkept : s.kept w.self = {} := s.kept_new _ (by rw [hself]; exact Nat.le_add_right ..)
  have hget : g.variants[w.kind]? = some w := (Grammar.getElem?_variants h).mpr ⟨rfl, hw⟩
  obtain ⟨hvariant, hlayout⟩ :=
    Grammar.getElem?_flatMap_pair Object.variant (fun w => .record w.layout true) g.variants w.kind
  rw [hget] at hvariant hlayout
  refine ⟨?_, ?_, congrArg Kept.slotNames hkept⟩
  · rw [hself, object?_addAll]
    exact hvariant
  · rw [hself, Nat.add_assoc s.size, object?_addAll]
    exact hlayout

end Store

namespace Session

variable {σ τ : Session} {input : Value} {d : Definition} {g : Grammar}

/-- The slot names of a variant are the names in its layout, when they are first asked for and ever after. -/
theorem slotNames_listed (hτ : InOrder τ) {w : Variant} (hvariant : τ.store.object? w.self = some (.variant w))
    (hlayout : τ.store.object? (w.self + 1) = some (.record w.layout true))
    (hkept : (τ.store.kept w.self).slotNames = none) :
    ∃ υ, slotNames w τ = (.ok w.layout.names, υ) ∧ slotNames w υ = (.ok w.layout.names, υ) := by
  have hlookup : ∀ {t : Store}, t.cells = τ.store.cells → t.object? w.self = some (.variant w) := by
    intro t ht
    rw [Store.object?, Store.cell?, ht]
    exact hvariant
  have hlisting : τ.store.listing? w.self = some w.layout.names := by
    rw [Store.listing?, Store.lookup_of_own (v := .object (w.self + 1)) hvariant rfl (by decide) (by decide)]
    rw [Store.names, Store.listed, hlayout]
    rfl
  have hid : τ.store.Unlisted w.self :=
    ⟨Store.lt_size_of_object? hvariant, hkept, by rw [hlisting]; rfl⟩
  obtain ⟨names, υ, hnames, hrun, _, hstore⟩ := listSlots_shown hτ hid fun t ht => by
    rw [Store.lookup_of_own (v := .text w.name) (hlookup ht) rfl (by decide) (by decide)]
    exact .inr ⟨w.name, rfl⟩
  cases hlisting.symm.trans hnames
  refine ⟨υ, ?_, ?_⟩
  · rw [slotNames, bind_ok (get_run τ), hkept]
    exact hrun
  · have hnow : (υ.store.kept w.self).slotNames = some w.layout.names := by
      rw [hstore, keepSlotNames, Store.kept_keep, if_pos ⟨rfl, hid.lt_size⟩]
    rw [slotNames, bind_ok (get_run υ), hnow]
    rfl

/-- A session stays in order when a grammar of a definition of the right shape is added. -/
theorem inOrder_addGrammar (hσ : InOrder σ) (hd : d.WellShaped) (h : Grammar.define σ.store σ.store.size d = .ok g)
    (last : Number) (lines : Array Text) :
    InOrder { σ.relined last lines with store := σ.store.addAll g.objects } := by
  refine (hσ.relined last lines).keeps (fun _ _ hlogger => hlogger.expands (Store.expands_addAll _ _)) ?_
  refine hσ.contained.addGrammar (fun node hnode => ?_) (addGrammar_of_define h)
  intro slot hslot
  rcases (hd.layouts node hnode).2 slot hslot with heq | heq
  · rw [heq]
    trivial
  · rw [heq]
    trivial

/-- A grammar is returned by a session only if it was defined. -/
theorem define_of_defineGrammar (hheld : d.IsHeld σ.store input) (hd : d.WellShaped)
    (h : defineGrammar input σ = (.ok g, τ)) : d.Consistent ∧ Grammar.define σ.store σ.store.size d = .ok g := by
  have hc : d.Consistent := by
    by_contra hno
    obtain ⟨fault, hfault, _⟩ := defineGrammar_refused hheld hd hno
    cases hfault.symm.trans h
  obtain ⟨g', hread, hdefine⟩ := hheld.define_of_consistent hd hc
  have hattempt : attempt (σ.store.addGrammar d) σ = (.ok (g', σ.store.addAll g'.objects), σ) := by
    rw [addGrammar_of_define hdefine]
    rfl
  rw [defineGrammar_read hread, addGrammar, bind_ok (get_run σ), bind_ok hattempt] at h
  rcases hwrite : announce grammarLogger .info "Defined" [("nodeKinds", .leaf (.ofNat g'.nodeKinds.size)),
    ("tokenKinds", .leaf (.ofNat g'.tokenKinds.size))] σ with ⟨failure | _, υ⟩
  · dsimp only at h
    rw [bind_error hwrite] at h
    cases h
  · dsimp only at h
    rw [bind_ok hwrite] at h
    cases h
    exact ⟨hc, hdefine⟩

/-- A definition is accepted if and only if it fits together, and refused because of its tokens or for itself if not;
in a session that can report the new grammar, that is what the call comes to. The tables of a grammar that was defined
agree, and the slot names of its variants are the names in their layouts. -/
theorem defineGrammar_decided (hheld : d.IsHeld σ.store input) (hd : d.WellShaped) :
    ((∃ g t, (do σ.store.addGrammar (← Definition.readTrusting σ.store input)) = .ok (g, t)) ↔ d.Consistent) ∧
    (InOrder σ → ((∃ g, (defineGrammar input σ).1 = .ok g) ↔ d.Consistent)) ∧
    (¬ d.Consistent → ∃ fault : Fault, defineGrammar input σ = (.error (.fault fault), σ) ∧
      fault.errorClass = if d.tokens.Nodup then .invalidDefinition else .invalidRegistry) ∧
    ∀ g τ, defineGrammar input σ = (.ok g, τ) → g.Realizes d ∧ (InOrder σ → ∀ w ∈ g.variants, ∃ υ,
      slotNames w τ = (.ok w.layout.names, υ) ∧ slotNames w υ = (.ok w.layout.names, υ)) := by
  refine ⟨⟨fun ⟨g, t, hok⟩ => ?_, fun hc => ?_⟩, fun hσ => ⟨fun ⟨g, hg⟩ => ?_, fun hc => ?_⟩,
    defineGrammar_refused hheld hd, fun g τ hrun => ?_⟩
  · by_contra hno
    obtain ⟨fault, _, hread | ⟨hread, hdefine⟩⟩ := hheld.refused_of_not_consistent hd hno
    · rw [hread] at hok
      cases hok
    · rw [hread, Attempt.ok_bind, Store.addGrammar, hdefine] at hok
      cases hok
  · obtain ⟨g, hread, hdefine⟩ := hheld.define_of_consistent hd hc
    rw [hread, Attempt.ok_bind]
    exact ⟨g, _, addGrammar_of_define hdefine⟩
  · exact (define_of_defineGrammar hheld hd (Prod.ext hg rfl)).1
  · obtain ⟨g, hread, hdefine⟩ := hheld.define_of_consistent hd hc
    obtain ⟨_, _, hrun⟩ := addGrammar_run hσ hdefine
    exact ⟨g, by rw [defineGrammar_read hread, hrun]⟩
  · obtain ⟨hc, hdefine⟩ := define_of_defineGrammar hheld hd hrun
    refine ⟨Grammar.realizes_of_define hd hdefine, fun hσ w hw => ?_⟩
    obtain ⟨_, hread, _⟩ := hheld.define_of_consistent hd hc
    obtain ⟨last, lines, hadd⟩ := addGrammar_run hσ hdefine
    rw [defineGrammar_read hread, hadd] at hrun
    cases hrun
    obtain ⟨hvariant, hlayout, hkept⟩ := Store.object?_variant hdefine hw
    exact slotNames_listed (inOrder_addGrammar hσ hd hdefine last lines) hvariant hlayout hkept

end Session

namespace Sample

/-- A session with a value that holds a definition with two node kinds, of which the second is listed first because
its name is an index, and one that names a token twice. -/
def outlined : Session := { Session.start 0 with
  store := (Session.start 0).store.addAll [.ofItems [.text "Word", .text "End"],
    .ofMembers [("body", Layout.many), ("endOfFileToken", Layout.one)], .ofMembers [("word", Layout.one)],
    .ofMembers (.ofList [("File", .object 30), ("7", .object 31)]),
    .ofMembers [("tokens", .object 29), ("nodes", .object 32), ("sourceFile", .text "File"),
      ("endOfFile", .text "End")],
    .ofItems [.text "End", .text "End"],
    .ofMembers [("tokens", .object 34), ("nodes", .object 32), ("sourceFile", .text "File"),
      ("endOfFile", .text "End")]] }

/-- The definition that the first of the values holds. -/
def plan : Definition where
  tokens := [.text "Word", .text "End"]
  nodes := [("7", [("word", Layout.one)]), ("File", [("body", Layout.many), ("endOfFileToken", Layout.one)])]
  sourceFile := .text "File"
  endOfFile := .text "End"

/-- The definition that the second one holds. -/
def muddle : Definition := { plan with tokens := [.text "End", .text "End"] }

theorem inOrder_outlined : Session.InOrder outlined :=
  Session.inOrder_addAll rfl _ (Store.contained_of_cells (by decide +kernel) (by decide +kernel))

theorem isHeld_plan : plan.IsHeld outlined.store (.object 33) where
  tokens := ⟨.object 29, rfl, rfl⟩
  nodes := ⟨.object 32, rfl, rfl, by decide +kernel, by decide +kernel⟩
  sourceFile := rfl
  endOfFile := rfl

theorem isHeld_muddle : muddle.IsHeld outlined.store (.object 35) where
  tokens := ⟨.object 34, rfl, rfl⟩
  nodes := ⟨.object 32, rfl, rfl, by decide +kernel, by decide +kernel⟩
  sourceFile := rfl
  endOfFile := rfl

theorem wellShaped_plan (names : List Text) : ({ plan with tokens := names.map .text } : Definition).WellShaped where
  tokens := ⟨names, rfl⟩
  sourceFile := ⟨_, rfl⟩
  endOfFile := ⟨_, rfl⟩
  nodes := show plan.nodes.names.Nodup by decide
  layouts := show ∀ node ∈ plan.nodes,
    node.2.names.Nodup ∧ ∀ slot ∈ node.2, slot.2 = Layout.one ∨ slot.2 = Layout.many by decide
  count := show plan.nodes.length < Sequence.lengthBound by decide

theorem consistent_plan : plan.Consistent where
  tokens := by decide
  slots := by
    have hnames : ∀ node ∈ plan.nodes, ∀ slot ∈ node.2.names, isSlotName slot = true ∧ slot ≠ "parent" := by decide
    exact fun node hnode slot hslot => (hnames node hnode slot hslot).imp_left isSlotName_iff.mp
  sourceFile := ⟨("File", _), List.mem_cons_of_mem _ List.mem_cons_self, rfl, by decide⟩
  endOfFile := by decide

/-- The first value is accepted and the second one is refused. -/
theorem defineGrammar_decided_outlined :
    (∃ g τ, Session.defineGrammar (.object 33) outlined = (.ok g, τ) ∧ g.Realizes plan ∧ ∀ w ∈ g.variants, ∃ υ,
      Session.slotNames w τ = (.ok w.layout.names, υ) ∧ Session.slotNames w υ = (.ok w.layout.names, υ)) ∧
    ∃ fault : Fault, Session.defineGrammar (.object 35) outlined = (.error (.fault fault), outlined) ∧
      fault.errorClass = .invalidRegistry := by
  obtain ⟨_, haccepted, _, htables⟩ := Session.defineGrammar_decided isHeld_plan (wellShaped_plan ["Word", "End"])
  obtain ⟨_, _, hrefused, _⟩ := Session.defineGrammar_decided isHeld_muddle (wellShaped_plan ["End", "End"])
  have hrepeated : ¬ muddle.tokens.Nodup := by decide
  refine ⟨?_, ?_⟩
  · obtain ⟨g, hg⟩ := (haccepted inOrder_outlined).mpr consistent_plan
    obtain ⟨hrealizes, hslots⟩ := htables g _ (Prod.ext hg rfl)
    exact ⟨g, _, Prod.ext hg rfl, hrealizes, hslots inOrder_outlined⟩
  · obtain ⟨fault, hrun, hclass⟩ := hrefused fun hc => hrepeated hc.tokens
    exact ⟨fault, hrun, hclass.trans (if_neg hrepeated)⟩

end Sample

end LosslessSyntax
