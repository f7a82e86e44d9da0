import LosslessSyntax.Proofs.Besides
import LosslessSyntax.Proofs.Making

/-!
# Stores in which everything is kept

`Store.primed` keeps beside every object what could be asked for: the slot names of whatever has a layout, and the
document of whatever has a text for source. Reading a store in which less is kept comes to the same as reading its
primed store, unless it stops at slots that have to be listed first (`Store.Matches`).

* `Store.matches_items`, `Store.matches_endPosition`, `Store.matches_renderJson`, …: so it is with all that reads slot
  names.
* `Walk.foresees_next`: so it is with walks.
-/

namespace LosslessSyntax

/-! ## Primed stores -/

/-- A document whose lines have been found, if it is a text. -/
def Document.settled (d : Document) : Document :=
  match d.content with
  | .text t => ⟨.text t, true⟩
  | _ => d

namespace Store

/-- The slot names that an object gives as a variant, if it has a layout. -/
def listing? (s : Store) (id : ObjectId) : Option (List Text) :=
  let layout := s.lookup id "layout"
  if layout.isMissing then none else some (s.names layout)

/-- The document of a file with a text for source. The name of its kind is no object, so that it has a text as well. -/
def freshDocument? (s : Store) (id : ObjectId) : Option Document :=
  match s.kindName (.object id), s.lookup id "source" with
  | .ok (.object _), _ => none
  | .ok _, .text t => some ⟨.text t, true⟩
  | _, _ => none

@[simp] theorem listing?_withKept (s : Store) (k : ObjectId → Kept) : (s.withKept k).listing? = s.listing? := by
  funext id
  simp [listing?]

@[simp] theorem freshDocument?_withKept (s : Store) (k : ObjectId → Kept) :
    (s.withKept k).freshDocument? = s.freshDocument? := by
  funext id
  simp [freshDocument?]

/-- What could be kept beside an object, tags apart. -/
def filled (s : Store) (id : ObjectId) : Kept :=
  { slotNames := (s.kept id).slotNames.or (s.listing? id)
    document := ((s.kept id).document.map Document.settled).or (s.freshDocument? id) }

/-- A store in which everything is kept that could be asked for, tags apart. -/
abbrev primed (s : Store) : Store := s.withKept s.filled

/-- The slots of an object can be listed, and have not been. -/
structure Unlisted (s : Store) (id : ObjectId) : Prop where
  lt_size : id < s.size
  kept : (s.kept id).slotNames = none
  listing : (s.listing? id).isSome

end Store

/-! ## Reading -/

/-- What is read does not stop at slots that have to be listed first. -/
def Attempt.Listed {α : Type} (x : Attempt α) : Prop := ∀ id, x ≠ .error (.unlisted id)

namespace Attempt

variable {α β : Type} {x : Attempt α}

theorem listed_ok (a : α) : Listed (.ok a) := fun _ h => by cases h

theorem listed_misuse (m : Misuse) : Listed (.error (.misuse m) : Attempt α) := fun _ h => by cases h

theorem listed_fault (fault : Fault) : Listed (.error (.fault fault) : Attempt α) := fun _ h => by cases h

theorem listed_ofMisuse (x : Except Misuse α) : Listed (ofMisuse x) := by
  cases x with
  | ok a => exact listed_ok a
  | error m => exact listed_misuse m

theorem Listed.bind (hx : Listed x) {f : α → Attempt β} (hf : ∀ a, Listed (f a)) : Listed (x >>= f) := by
  cases x with
  | ok a => exact hf a
  | error failure => exact fun id h => hx id (by cases h; rfl)

end Attempt

namespace Store

variable {α β : Type} {s : Store}

/-- What is read in a store, and in its primed store: the same, or the first stops at slots that have to be listed. The
other one stops only where nothing can be listed. -/
inductive Matches (s : Store) : Attempt α → Attempt α → Prop
  | same {x : Attempt α} (h : ∀ id, x = .error (.unlisted id) → s.listing? id = none) : Matches s x x
  | unlisted {id : ObjectId} (h : s.Unlisted id) (y : Attempt α) : Matches s (.error (.unlisted id)) y

namespace Matches

variable {x y : Attempt α}

theorem of_listed (h : x.Listed) : s.Matches x x := .same fun id hx => absurd hx (h id)

theorem ok (a : α) : s.Matches (.ok a) (.ok a) := of_listed (Attempt.listed_ok a)

theorem ofMisuse (x : Except Misuse α) : s.Matches (Attempt.ofMisuse x) (Attempt.ofMisuse x) :=
  of_listed (Attempt.listed_ofMisuse x)

theorem bind {f g : α → Attempt β} (h : s.Matches x y) (hf : ∀ a, s.Matches (f a) (g a)) :
    s.Matches (x >>= f) (y >>= g) := by
  cases h with
  | unlisted h => exact .unlisted h _
  | same h =>
    cases x with
    | ok a => exact hf a
    | error failure => exact .same fun id hx => h id (by cases hx; rfl)

theorem map (f : α → β) (h : s.Matches x y) : s.Matches (f <$> x) (f <$> y) := by
  rw [map_eq_pure_bind, map_eq_pure_bind]
  exact h.bind fun a => ok (f a)

theorem mapM {f g : α → Attempt β} (h : ∀ a, s.Matches (f a) (g a)) (as : List α) :
    s.Matches (as.mapM f) (as.mapM g) := by
  induction as with
  | nil => exact ok []
  | cons a as ih =>
    rw [List.mapM_cons, List.mapM_cons]
    exact (h a).bind fun b => ih.bind fun bs => ok (b :: bs)

theorem foldlM {f g : β → α → Attempt β} (h : ∀ b a, s.Matches (f b a) (g b a)) (as : List α) (b : β) :
    s.Matches (as.foldlM f b) (as.foldlM g b) := by
  induction as generalizing b with
  | nil => exact ok b
  | cons a as ih =>
    rw [List.foldlM_cons, List.foldlM_cons]
    exact (h b a).bind ih

theorem findSomeM? {f g : α → Attempt (Option β)} (h : ∀ a, s.Matches (f a) (g a)) (as : List α) :
    s.Matches (as.findSomeM? f) (as.findSomeM? g) := by
  induction as with
  | nil => exact ok none
  | cons a as ih =>
    refine (h a).bind fun answer => ?_
    cases answer with
    | some b => exact ok (some b)
    | none => exact ih

theorem findM? {p q : α → Attempt Bool} (h : ∀ a, s.Matches (p a) (q a)) (as : List α) :
    s.Matches (as.findM? p) (as.findM? q) := by
  induction as with
  | nil => exact ok none
  | cons a as ih =>
    refine (h a).bind fun answer => ?_
    cases answer with
    | true => exact ok (some a)
    | false => exact ih

end Matches

/-! ## Slot names -/

theorem kept_primed {id : ObjectId} (h : id < s.size) : s.primed.kept id = s.filled id := if_pos h

theorem matches_slotNamesOf (v : Value) : s.Matches (s.slotNamesOf v) (s.primed.slotNamesOf v) := by
  cases v with
  | object id =>
    rw [slotNamesOf, slotNamesOf, cell?_withKept]
    cases hcell : s.cell? id with
    | none => exact .of_listed (Attempt.listed_misuse _)
    | some c =>
      have hlt : id < s.size := (Array.getElem?_eq_some_iff.mp hcell).1
      have hkept : (s.primed.kept id).slotNames = (s.kept id).slotNames.or (s.listing? id) :=
        congrArg Kept.slotNames (kept_primed hlt)
      dsimp only
      rw [hkept]
      cases hnames : (s.kept id).slotNames with
      | some names => cases c.object <;> exact .ok _
      | none =>
        -- A variant of a grammar needs no listing; for any other object the names are there once it has a layout.
        have hother : s.Matches (.error (.unlisted id)) ((s.listing? id).elim (.error (.unlisted id)) .ok) := by
          cases hlisting : s.listing? id with
          | none => exact .same fun other h => by cases h; exact hlisting
          | some names => exact .unlisted ⟨hlt, hnames, by rw [hlisting]; rfl⟩ _
        cases hobject : c.object with
        | variant w => exact .ok _
        | _ => cases hlisting : s.listing? id <;> rw [hlisting] at hother <;> exact hother
  | _ => exact .of_listed (Attempt.listed_misuse _)

theorem matches_slotNames (v : Value) : s.Matches (s.slotNames v) (s.primed.slotNames v) := by
  simp only [slotNames, madeVariant?_withKept, member_withKept]
  cases s.madeVariant? v with
  | some w => exact .ok _
  | none => exact (Matches.ofMisuse _).bind matches_slotNamesOf

theorem matches_contents (v : Value) : s.Matches (s.contents v) (s.primed.contents v) := by
  simp only [contents, slotContent_withKept]
  exact (matches_slotNames v).bind (Matches.mapM fun _ => (Matches.ofMisuse _).bind fun _ => .ok _)

/-! ## Items -/

theorem listed_malformed (cause : Malformation) (v : Value) : (s.malformed cause v : Attempt α).Listed :=
  (Attempt.listed_ofMisuse _).bind fun _ => Attempt.listed_fault _

theorem listed_detached (v : Value) : (s.detached v : Attempt α).Listed :=
  (Attempt.listed_ofMisuse _).bind fun _ => Attempt.listed_fault _

theorem listed_read (owner : Value) (item : Item) : (s.read owner item).Listed := by
  cases item with
  | value slot v =>
    rw [read]
    cases s.elementOf? v with
    | some e => exact Attempt.listed_ok e
    | none => exact listed_malformed _ _
  | unreadable m => exact Attempt.listed_misuse m

theorem matches_read (owner : Value) (item : Item) : s.Matches (s.read owner item) (s.read owner item) :=
  .of_listed (listed_read owner item)

theorem matches_items (v : Value) : s.Matches (s.items v) (s.primed.items v) := by
  simp only [items, slotItems_withKept]
  exact (matches_slotNames v).bind fun _ => .ok _

theorem matches_openCursor (v : Value) : s.Matches (s.openCursor v) (s.primed.openCursor v) :=
  (matches_slotNames v).bind fun _ => .ok _

theorem matches_foldBelow {f g : β → Element → Attempt β} (h : ∀ state e, s.Matches (f state e) (g state e))
    (depth : Nat) (v : Value) (state : β) :
    s.Matches (s.foldBelow f depth v state) (s.primed.foldBelow g depth v state) := by
  induction depth generalizing v state with
  | zero => exact .of_listed (Attempt.listed_misuse _)
  | succ depth ih =>
    simp only [foldBelow, read_withKept]
    refine (matches_items v).bind fun items => Matches.foldlM (fun state item => ?_) items state
    refine (matches_read v item).bind fun e => (h state e).bind fun state => ?_
    cases e with
    | node child t => exact ih _ state
    | token id t => exact .ok state

theorem matches_foldElements {f g : β → Element → Attempt β} (h : ∀ state e, s.Matches (f state e) (g state e))
    (v : Value) (state : β) : s.Matches (s.foldElements f v state) (s.primed.foldElements g v state) :=
  matches_foldBelow h _ v state

theorem matches_descendants (v : Value) : s.Matches (s.descendants v) (s.primed.descendants v) :=
  (matches_foldElements (fun _ _ => .ok _) v []).bind fun _ => .ok _

theorem matches_descendantNodes (v : Value) : s.Matches (s.descendantNodes v) (s.primed.descendantNodes v) :=
  (matches_descendants v).bind fun _ => .ok _

theorem matches_searchBelow {f g : ObjectId → Token → Attempt (Option α)} (h : ∀ id t, s.Matches (f id t) (g id t))
    (depth : Nat) (v : Value) : s.Matches (s.searchBelow f depth v) (s.primed.searchBelow g depth v) := by
  induction depth generalizing v with
  | zero => exact .of_listed (Attempt.listed_misuse _)
  | succ depth ih =>
    simp only [searchBelow, read_withKept]
    refine (matches_items v).bind fun items => Matches.findSomeM? (fun item => ?_) items
    refine (matches_read v item).bind fun e => ?_
    cases e with
    | token id t => exact h id t
    | node child t =>
      cases t with
      | none => exact ih _
      | some t =>
        refine (h child t).bind fun answer => ?_
        cases answer with
        | some a => exact .ok _
        | none => exact ih _

theorem matches_findToken {f g : ObjectId → Token → Attempt (Option α)} (h : ∀ id t, s.Matches (f id t) (g id t))
    (v : Value) : s.Matches (s.findToken f v) (s.primed.findToken g v) :=
  matches_searchBelow h _ v

theorem matches_firstToken (v : Value) : s.Matches (s.firstToken v) (s.primed.firstToken v) :=
  matches_findToken (fun _ _ => .ok _) v

/-! ## Starts and widths -/

theorem matches_edgeAt (offset : Token → Number) (depth : Nat) (v : Value) :
    s.Matches (s.edgeAt offset depth v) (s.primed.edgeAt offset depth v) := by
  induction depth generalizing v with
  | zero => exact .of_listed (Attempt.listed_misuse _)
  | succ depth ih =>
    simp only [edgeAt, read_withKept, malformed_withKept]
    refine (matches_items v).bind fun items => ?_
    cases items with
    | nil => exact .of_listed (listed_malformed _ _)
    | cons first rest =>
      refine (matches_read v first).bind fun e => ?_
      cases e with
      | node child t => exact ih _
      | token id t => exact .ok _

theorem matches_fullStart (v : Value) : s.Matches (s.fullStart v) (s.primed.fullStart v) := matches_edgeAt _ _ v

theorem matches_start (v : Value) : s.Matches (s.start v) (s.primed.start v) := matches_edgeAt _ _ v

theorem matches_sumItems (owner : Value) {f g : Value → Attempt Number} (h : ∀ v, s.Matches (f v) (g v))
    (total : Number) (items : List Item) :
    s.Matches (s.sumItems owner f total items) (s.primed.sumItems owner g total items) := by
  simp only [sumItems, read_withKept]
  refine Matches.foldlM (fun sum item => (matches_read owner item).bind fun e => ?_) items total
  cases e with
  | node child t => exact (h _).bind fun _ => .ok _
  | token id t => exact .ok _

theorem matches_fullWidthAt (depth : Nat) (v : Value) :
    s.Matches (s.fullWidthAt depth v) (s.primed.fullWidthAt depth v) := by
  induction depth generalizing v with
  | zero => exact .of_listed (Attempt.listed_misuse _)
  | succ depth ih => exact (matches_items v).bind fun items => matches_sumItems v ih 0 items

theorem matches_widthAt (depth : Nat) (v : Value) : s.Matches (s.widthAt depth v) (s.primed.widthAt depth v) := by
  induction depth generalizing v with
  | zero => exact .of_listed (Attempt.listed_misuse _)
  | succ depth ih =>
    simp only [widthAt, read_withKept]
    refine (matches_items v).bind fun items => ?_
    cases items with
    | nil => exact .ok _
    | cons first rest =>
      have hrest : ∀ size, s.Matches (s.sumItems v (s.fullWidthAt depth) (0 + size) rest)
          (s.primed.sumItems v (s.primed.fullWidthAt depth) (0 + size) rest) :=
        fun size => matches_sumItems v (matches_fullWidthAt depth) _ rest
      refine (matches_read v first).bind fun e => ?_
      cases e with
      | node child t => exact (ih _).bind hrest
      | token id t => exact (Matches.ok _).bind hrest

theorem matches_fullWidth (v : Value) : s.Matches (s.fullWidth v) (s.primed.fullWidth v) := by
  simp only [fullWidth, namesNode_withKept, member_withKept]
  split
  · exact (matches_fullWidthAt _ v).map _
  · exact .ofMisuse _

theorem matches_width (v : Value) : s.Matches (s.width v) (s.primed.width v) := by
  simp only [width, namesNode_withKept, TokenFields.ofValue_withKept, TokenFields.width_withKept]
  split
  · exact (matches_widthAt _ v).map _
  · exact .ofMisuse _

/-! ## Ends -/

theorem matches_stop (v : Value) : s.Matches (s.stop v) (s.primed.stop v) := by
  simp only [stop, plus_withKept]
  exact (matches_fullStart v).bind fun _ => (matches_fullWidth v).bind fun _ => .ofMisuse _

theorem listed_nextNode? (owner : Value) (items : List Item) : (s.nextNode? owner items).Listed := by
  induction items with
  | nil => exact Attempt.listed_ok none
  | cons item rest ih =>
    refine (listed_read owner item).bind fun e => ?_
    cases e with
    | node id t => exact Attempt.listed_ok _
    | token id t => exact ih

theorem listed_nodeAfter? (owner v : Value) (items : List Item) : (s.nodeAfter? owner v items).Listed := by
  induction items with
  | nil => exact Attempt.listed_ok none
  | cons item rest ih =>
    refine (listed_read owner item).bind fun e => ?_
    cases e with
    | token id t => exact ih
    | node id t =>
      dsimp only
      split
      · exact (listed_nextNode? owner rest).bind fun _ => Attempt.listed_ok _
      · exact ih

theorem listed_root (v : Value) : (s.root v).Listed := by
  cases v with
  | object id =>
    rw [root]
    cases (s.cell? id).bind Cell.root with
    | some r => exact Attempt.listed_ok r
    | none =>
      dsimp only
      split
      · exact Attempt.listed_ok _
      · exact listed_detached _
  | _ => exact listed_detached _

theorem listed_source (v : Value) : (s.source v).Listed := (listed_root v).bind fun _ => Attempt.listed_ok _

theorem listed_endOfFile (v : Value) : (s.endOfFile v).Listed := (listed_root v).bind fun _ => Attempt.listed_ok _

theorem matches_endPosition (v : Value) : s.Matches (s.endPosition v) (s.primed.endPosition v) := by
  simp only [endPosition, member_withKept, nodeAfter?_withKept, malformed_withKept, endOfFile_withKept,
    namesSourceFile_withKept, detached_withKept, TokenFields.ofValue_withKept, TokenFields.stop_withKept]
  refine (Matches.ofMisuse _).bind fun parent => ?_
  split
  · refine (matches_items parent).bind fun items => (Matches.of_listed (listed_nodeAfter? _ _ _)).bind fun after => ?_
    cases after with
    | none => exact .of_listed (listed_malformed _ _)
    | some next =>
      cases next with
      | some next => exact (matches_fullStart _).bind fun _ => .ok _
      | none => exact (Matches.of_listed (listed_endOfFile v)).bind fun _ => .ofMisuse _
  · split
    · exact .ofMisuse _
    · exact .of_listed (listed_detached _)

/-! ## Texts -/

theorem listed_cut (source : Value) (t : Token) (ofText : Token → Text → Text)
    (ofFields : TokenFields → Store → Value → Except Misuse Data) : (s.cut source t ofText ofFields).Listed := by
  cases source with
  | text whole => exact Attempt.listed_ok _
  | _ => exact Attempt.listed_ofMisuse _

theorem listed_addText {first : Token → Attempt Data} (h : ∀ t, (first t).Listed) (source : Value) (texts : List Text)
    (t : Token) : (s.addText first source texts t).Listed := by
  have hrest : ∀ part : Data, (do return (← Attempt.ofMisuse (part.text s)) :: texts : Attempt (List Text)).Listed :=
    fun part => (Attempt.listed_ofMisuse _).bind fun _ => Attempt.listed_ok _
  rw [addText]
  split
  · exact (h t).bind hrest
  · exact (listed_cut _ _ _ _).bind hrest

theorem matches_tokenTexts {first : Token → Attempt Data} (h : ∀ t, (first t).Listed) (source v : Value) :
    s.Matches (s.tokenTexts first source v) (s.primed.tokenTexts first source v) := by
  simp only [tokenTexts, addText_withKept]
  refine (matches_foldElements (fun texts e => ?_) v []).bind fun _ => .ok _
  cases e.token? with
  | none => exact .ok _
  | some t => exact .of_listed (listed_addText h _ _ _)

theorem matches_nodeText (v : Value) : s.Matches (s.nodeText v) (s.primed.nodeText v) := by
  simp only [nodeText, source_withKept, tokenText_withKept]
  exact (Matches.of_listed (listed_source v)).bind fun source =>
    matches_tokenTexts (fun _ => listed_cut _ _ _ _) source v

theorem matches_fullText (v : Value) : s.Matches (s.fullText v) (s.primed.fullText v) := by
  simp only [fullText, source_withKept, tokenFullText_withKept]
  exact (Matches.of_listed (listed_source v)).bind fun source =>
    matches_tokenTexts (fun _ => listed_cut _ _ _ _) source v

theorem matches_leadingTrivia (v : Value) : s.Matches (s.leadingTrivia v) (s.primed.leadingTrivia v) := by
  simp only [leadingTrivia, source_withKept, tokenTrivia_withKept]
  refine (matches_firstToken v).bind fun found => ?_
  cases found with
  | none => exact .ok _
  | some t => exact (Matches.of_listed (listed_source v)).bind fun _ => .of_listed (listed_cut _ _ _ _)

/-! ## Locating -/

theorem matches_spanContains (offset : Value) (id : ObjectId) :
    s.Matches (s.spanContains offset id) (s.primed.spanContains offset id) := by
  simp only [spanContains, atMost_withKept, lessThan_withKept]
  refine (matches_fullStart _).bind fun first => (Matches.ofMisuse _).bind fun reached => ?_
  split
  · exact (matches_endPosition _).bind fun _ => .ofMisuse _
  · exact .ok _

theorem matches_nodeAt (v offset : Value) : s.Matches (s.nodeAt v offset) (s.primed.nodeAt v offset) :=
  (matches_descendantNodes v).bind fun nodes => Matches.findM? (matches_spanContains offset) nodes.reverse

theorem matches_tokenAt (v offset : Value) : s.Matches (s.tokenAt v offset) (s.primed.tokenAt v offset) := by
  simp only [tokenAt, tokenContains_withKept]
  exact matches_findToken (fun _ _ => (Matches.ofMisuse _).bind fun _ => .ok _) v

/-! ## Rendering -/

theorem matches_renderSlot {f g : Value → Attempt Data} (h : ∀ v, s.Matches (f v) (g v)) (content : Value) :
    s.Matches (s.renderSlot f content) (s.renderSlot g content) := by
  rw [renderSlot, renderSlot]
  split
  · exact .ok _
  · split
    · exact h content
    · refine (Matches.ofMisuse _).bind fun items => (Matches.mapM (fun item => ?_) _).bind fun _ => .ok _
      cases item with
      | some v => exact h v
      | none => exact .ok _

theorem matches_renderAt (grammar : Value) (format : TokenFormat) (depth : Nat) (v : Value) :
    s.Matches (s.renderAt grammar format depth v) (s.primed.renderAt grammar format depth v) := by
  induction depth generalizing v with
  | zero => exact .of_listed (Attempt.listed_misuse _)
  | succ depth ih =>
    simp only [renderAt, isNode_withKept, renderSlot_withKept, text_withKept, kindName_withKept,
      renderToken_withKept]
    cases v with
    | object id =>
      dsimp only
      split
      · refine (matches_contents _).bind fun contents => (Matches.mapM (fun entry => ?_) contents).bind fun slots => ?_
        · exact (matches_renderSlot ih _).bind fun _ => .ok _
        · exact (Matches.ofMisuse _).bind fun _ => .ok _
      · exact .ofMisuse _
    | _ =>
      simp only [Bool.false_eq_true, if_false]
      exact .ofMisuse _

theorem matches_render (grammar : Value) (format : TokenFormat) (v : Value) :
    s.Matches (s.render grammar format v) (s.primed.render grammar format v) := matches_renderAt _ _ _ v

theorem matches_renderJson (grammar : Value) (format : TokenFormat) (v : Value) :
    s.Matches (s.renderJson grammar format v) (s.primed.renderJson grammar format v) := by
  simp only [renderJson, Data.jsonText_withKept]
  exact (matches_render grammar format v).bind fun _ => (Matches.ofMisuse _).bind fun _ => .ok _

/-! ## Slots that are named -/

theorem listed_declaredSlot (v : Value) (slot : Text) : (s.declaredSlot v slot).Listed := by
  refine (Attempt.listed_ofMisuse _).bind fun arity => ?_
  cases arity with
  | none => exact listed_malformed _ _
  | some arity => exact (Attempt.listed_ofMisuse _).bind fun _ => Attempt.listed_ok _

theorem listed_child (v : Value) (slot : Text) : (s.child v slot).Listed := by
  refine (listed_declaredSlot v slot).bind fun found => ?_
  dsimp only
  split
  · exact listed_malformed _ _
  · exact Attempt.listed_ok _

theorem listed_list (v : Value) (slot : Text) : (s.list v slot).Listed := by
  refine (listed_declaredSlot v slot).bind fun found => ?_
  dsimp only
  split
  · exact listed_malformed _ _
  · exact Attempt.listed_ok _

/-! ## Plans -/

theorem matches_planFor (variant : Value) (input : Input) :
    s.Matches (s.planFor variant input) (s.primed.planFor variant input) := by
  simp only [planFor, member_withKept, arityIn?_withKept]
  refine (Matches.ofMisuse _).bind fun kind => (Matches.ofMisuse _).bind fun layout => ?_
  split
  · exact .of_listed (Attempt.listed_misuse _)
  · split
    · exact .ok _
    · exact (matches_slotNamesOf variant).bind fun _ =>
        (Matches.mapM (fun _ => (Matches.ofMisuse _).bind fun _ => .ok _) _).bind fun _ => .ok _

/-! ## The nodes of a file -/

variable {ρ : Type} {failure? : ρ → Option Failure}

/-- The same of a result that can hold a failure among other things. -/
inductive Foresees (s : Store) (failure? : ρ → Option Failure) : ρ → ρ → Prop
  | same {x : ρ} (h : ∀ id, failure? x = some (.unlisted id) → s.listing? id = none) : Foresees s failure? x x
  | unlisted {x : ρ} {id : ObjectId} (h : failure? x = some (.unlisted id)) (hid : s.Unlisted id) (y : ρ) :
      Foresees s failure? x y

theorem Foresees.of_none {x : ρ} (h : failure? x = none) : s.Foresees failure? x x :=
  .same fun id hid => by rw [h] at hid; cases hid

theorem Foresees.of_listed {x : ρ} {f : Failure} (h : failure? x = some f) (hf : ∀ id, f ≠ .unlisted id) :
    s.Foresees failure? x x :=
  .same fun id hid => by rw [h] at hid; cases hid; exact absurd rfl (hf id)

theorem matches_childNodes (id : ObjectId) : s.Matches (s.childNodes id) (s.primed.childNodes id) := by
  simp only [childNodes, iterated_withKept, isNode_withKept]
  exact (matches_contents _).bind fun contents => (Matches.mapM (fun _ => .ofMisuse _) contents).bind fun _ => .ok _

theorem Foresees.gather {below below' : ObjectId → List ObjectId × Option Failure}
    (h : ∀ child, s.Foresees Prod.snd (below child) (below' child)) (child : ObjectId)
    {acc acc' : List ObjectId × Option Failure} (hacc : s.Foresees Prod.snd acc acc') :
    s.Foresees Prod.snd (Store.gather below child acc) (Store.gather below' child acc') := by
  cases hacc with
  | unlisted hf hid =>
    refine .unlisted ?_ hid _
    rw [Store.gather, hf]
    exact hf
  | same hacc =>
    rcases acc with ⟨before, _ | f⟩
    · have hchild := h child
      rw [Store.gather, Store.gather]
      generalize below child = x at hchild ⊢
      generalize below' child = y at hchild ⊢
      cases hchild with
      | same hx => exact .same hx
      | unlisted hf hid =>
        refine .unlisted ?_ hid _
        exact hf
    · exact .same hacc

theorem foresees_nodesFrom (depth : Nat) (id : ObjectId) :
    s.Foresees Prod.snd (s.nodesFrom depth id) (s.primed.nodesFrom depth id) := by
  induction depth generalizing id with
  | zero => exact .of_listed rfl fun _ h => by cases h
  | succ depth ih =>
    have hchildren := matches_childNodes (s := s) id
    rcases hx : s.childNodes id with f | children
    · rw [nodesFrom, hx]
      rw [hx] at hchildren
      generalize hy : s.primed.childNodes id = y at hchildren
      cases hchildren with
      | unlisted hid =>
        refine .unlisted ?_ hid _
        rfl
      | same h =>
        rw [nodesFrom, hy]
        exact .same fun other hother => h other (by cases hother; rfl)
    · have hy : s.primed.childNodes id = .ok children := by
        rw [hx] at hchildren
        generalize s.primed.childNodes id = y at hchildren
        cases hchildren
        rfl
      rw [nodesFrom_succ hx, nodesFrom_succ hy]
      clear hx hy hchildren
      induction children with
      | nil => exact .of_none rfl
      | cons child children ihc => exact .gather ih child ihc

theorem foresees_nodesOf (id : ObjectId) : s.Foresees Prod.snd (s.nodesOf id) (s.primed.nodesOf id) :=
  foresees_nodesFrom _ id

end Store

/-! ## Walks -/

namespace Walk

open Store

def Search.failure? (r : Search) : Option Failure := r.found.bind Outcome.failure?

variable {s : Store} {predicate : Option Predicate}

theorem matches_children (accept : Accept) (v : Value) :
    s.Matches (children s accept v) (children s.primed accept v) :=
  (matches_openCursor v).bind fun _ => .ok _

theorem matches_descendants (accept : Accept) (v : Value) :
    s.Matches (descendants s accept v) (descendants s.primed accept v) :=
  (matches_openCursor v).bind fun _ => .ok _

theorem listed_ask (h : ∀ p ∈ predicate, ∀ id, (p id).Listed) (id : ObjectId) : (ask predicate id).Listed := by
  cases predicate with
  | none => exact Attempt.listed_ok _
  | some p => exact (h p rfl id).bind fun _ => Attempt.listed_ok _

/-- Goes on with another search, unless something was found. -/
def Search.orElse (inner later : Search) (question : List (ObjectId × Bool)) (outer : List Cursor) : Search :=
  match inner.found with
  | some outcome => ⟨question ++ inner.asked, some outcome, inner.stack ++ outer⟩
  | none => { later with asked := question ++ inner.asked ++ later.asked }

theorem failure?_orElse_of_some {inner : Search} {f : Failure} (h : inner.failure? = some f) (later : Search)
    (question : List (ObjectId × Bool)) (outer : List Cursor) :
    (inner.orElse later question outer).failure? = some f := by
  rw [Search.failure?] at h
  rcases hfound : inner.found with _ | outcome
  · rw [hfound] at h
    cases h
  · rw [hfound] at h
    rw [Search.orElse, hfound]
    exact h

theorem foresees_orElse {inner inner' later later' : Search} (hinner : s.Foresees Search.failure? inner inner')
    (hlater : s.Foresees Search.failure? later later') (question : List (ObjectId × Bool)) (outer : List Cursor) :
    s.Foresees Search.failure? (inner.orElse later question outer) (inner'.orElse later' question outer) := by
  cases hinner with
  | unlisted hf hid => exact .unlisted (failure?_orElse_of_some hf _ _ _) hid _
  | same hx =>
    rcases hfound : inner.found with _ | outcome
    · rw [Search.orElse, Search.orElse, hfound]
      cases hlater with
      | same hy => exact .same hy
      | unlisted hf hid =>
        refine .unlisted ?_ hid _
        exact hf
    · rw [Search.orElse, Search.orElse, hfound]
      refine .same fun id hid => hx id ?_
      rw [Search.failure?, hfound]
      exact hid

theorem foresees_searchItems (accept : Accept) (h : ∀ p ∈ predicate, ∀ id, (p id).Listed)
    {enter enter' : ObjectId → Search} (henter : ∀ id, s.Foresees Search.failure? (enter id) (enter' id))
    (owner : Value) (items : List (Item × Cursor)) :
    s.Foresees Search.failure? (searchItems s accept predicate enter owner items)
      (searchItems s.primed accept predicate enter' owner items) := by
  induction items with
  | nil => exact .of_none rfl
  | cons entry rest ih =>
    obtain ⟨item, after⟩ := entry
    rw [searchItems_cons, searchItems_cons, read_withKept]
    rcases hread : s.read owner item with f | e
    · exact .of_listed (f := f) rfl fun id hid => listed_read owner item id (hid ▸ hread)
    · dsimp only
      split
      · exact .of_none rfl
      · cases e with
        | token id t => exact ih
        | node id t =>
          dsimp only
          rcases hask : ask predicate id with f | ⟨answer, question⟩
          · refine .of_listed (f := f) rfl fun other hother => listed_ask h id other (hother ▸ hask)
          · have hinner : s.Foresees Search.failure? (if answer then enter id else {})
                (if answer then enter' id else {}) := by
              cases answer with
              | true => exact henter id
              | false => exact .of_none rfl
            exact foresees_orElse hinner ih question [after]

theorem foresees_searchBelow (accept : Accept) (h : ∀ p ∈ predicate, ∀ id, (p id).Listed) (depth : Nat)
    (id : ObjectId) :
    s.Foresees Search.failure? (searchBelow s accept predicate depth id)
      (searchBelow s.primed accept predicate depth id) := by
  induction depth generalizing id with
  | zero => exact .of_listed rfl fun _ h => by cases h
  | succ depth ih =>
    have hcursor := matches_openCursor (s := s) (.object id)
    rw [searchBelow_succ, searchBelow_succ, itemsFrom_withKept]
    generalize s.openCursor (.object id) = x at hcursor ⊢
    generalize s.primed.openCursor (.object id) = y at hcursor ⊢
    cases hcursor with
    | unlisted hid =>
      refine .unlisted ?_ hid _
      rfl
    | same hx =>
      cases x with
      | ok cursor => exact foresees_searchItems accept h ih _ _
      | error f => exact .same fun other hother => hx other (by cases hother; rfl)

theorem foresees_searchStack (accept : Accept) (h : ∀ p ∈ predicate, ∀ id, (p id).Listed)
    {enter enter' : ObjectId → Search} (henter : ∀ id, s.Foresees Search.failure? (enter id) (enter' id))
    (stack : List Cursor) :
    s.Foresees Search.failure? (searchStack s accept predicate enter stack)
      (searchStack s.primed accept predicate enter' stack) := by
  induction stack with
  | nil => exact .of_none rfl
  | cons cursor outer ih =>
    rw [searchStack_cons, searchStack_cons, itemsFrom_withKept]
    exact foresees_orElse (foresees_searchItems accept h henter _ _) ih [] outer

/-- The failure of entering a node. -/
def failureOfEntering? (entered : List (ObjectId × Bool) × Attempt (List Cursor)) : Option Failure :=
  match entered.2 with
  | .ok _ => none
  | .error f => some f

theorem foresees_enterPending (h : ∀ p ∈ predicate, ∀ id, (p id).Listed) (w : Walk) :
    s.Foresees failureOfEntering? (w.enterPending s predicate) (w.enterPending s.primed predicate) := by
  rw [enterPending_eq, enterPending_eq]
  cases w.pending with
  | none => exact .of_none rfl
  | some id =>
    dsimp only
    rcases hask : ask predicate id with f | ⟨answer, question⟩
    · exact .of_listed (f := f) rfl fun other hother => listed_ask h id other (hother ▸ hask)
    · cases answer with
      | false => exact .of_none rfl
      | true =>
        have hcursor := matches_openCursor (s := s) (.object id)
        dsimp only
        generalize s.openCursor (.object id) = x at hcursor ⊢
        generalize s.primed.openCursor (.object id) = y at hcursor ⊢
        cases hcursor with
        | unlisted hid =>
          refine .unlisted ?_ hid _
          rfl
        | same hx =>
          cases x with
          | ok cursor => exact .of_none rfl
          | error f => exact .same fun other hother => hx other (by cases hother; rfl)

/-- A pull comes to the same in the primed store, unless it stops at slots that have to be listed. -/
theorem foresees_next (h : ∀ p ∈ predicate, ∀ id, (p id).Listed) (w : Walk) :
    s.Foresees Pull.failure? (w.next s predicate) (w.next s.primed predicate) := by
  rw [next_eq, next_eq]
  have hentered := foresees_enterPending (s := s) h w
  generalize w.enterPending s predicate = x at hentered ⊢
  generalize w.enterPending s.primed predicate = y at hentered ⊢
  obtain ⟨question, entered⟩ := x
  cases hentered with
  | unlisted hf hid =>
    cases entered with
    | ok stack => cases hf
    | error f =>
      refine .unlisted ?_ hid _
      exact hf
  | same hx =>
    cases entered with
    | error f => exact .same hx
    | ok stack =>
      have hall : ∀ p ∈ (if w.deep then predicate else none), ∀ id, (p id).Listed := by
        split
        · exact h
        · exact fun _ hp => by cases hp
      have henter : ∀ id, s.Foresees Search.failure?
          ((if w.deep then searchBelow s w.accept predicate (s.size + 1) else fun _ => {}) id)
          ((if w.deep then searchBelow s.primed w.accept predicate (s.size + 1) else fun _ => {}) id) := by
        intro id
        split
        · exact foresees_searchBelow w.accept h _ id
        · exact .of_none rfl
      have hsearch := foresees_searchStack w.accept hall henter stack
      have hfailure : ∀ r : Search, (r.found.getD .done).failure? = r.failure? := by
        intro r
        rw [Search.failure?]
        cases r.found <;> rfl
      dsimp only [size_withKept]
      generalize searchStack s _ _ _ _ = x at hsearch ⊢
      generalize searchStack s.primed _ _ _ _ = y at hsearch ⊢
      cases hsearch with
      | unlisted hf hid =>
        refine .unlisted ?_ hid _
        exact (hfailure x).trans hf
      | same hx => exact .same fun id hid => hx id ((hfailure x).symm.trans hid)

end Walk

end LosslessSyntax
