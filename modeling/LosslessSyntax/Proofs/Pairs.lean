import LosslessSyntax.Proofs.Listing

/-!
# Pairs of stores

Two stores that are the same once primed have the same objects and links, and differ in what has been asked for before.
What is done in both of them leaves stores that are the same once primed.

* `Store.document_same`, `Store.primed_noteLines`: documents, which can differ in whether the lines of a text have been
  found.
* `Building.Blind`: building that comes to the same whatever is kept beside objects, and never stops at slots that have
  to be listed. Making a node is of that sort (`Store.blind_create`), and so is making a source file, once there is a plan
  for it (`Store.blind_addFileBy`, `Store.foresees_addOtherFile`).
-/

namespace LosslessSyntax

/-! ## Primed stores -/

theorem Document.settled_settled (d : Document) : d.settled.settled = d.settled := by
  rcases d with ⟨content, counted⟩
  cases content <;> rfl

theorem Document.settled_of_counted {d : Document} (h : d.counted = true) : d.settled = d := by
  rcases d with ⟨content, counted⟩
  cases h
  cases content <;> rfl

/-- The lines of what is settled are found if it is a text. -/
theorem Document.eq_of_counted {d : Document} (h : d.settled.counted = true) :
    d.settled = { d with counted := true } := by
  rcases d with ⟨content, counted⟩
  cases content <;> first | rfl | exact congrArg (Document.mk _) h

theorem Document.settled_of_not_counted {d : Document} (h : d.settled.counted = false) : d.settled = d := by
  rcases d with ⟨content, counted⟩
  cases content with
  | text t => cases h
  | _ => rfl

namespace Store

variable {s t : Store} {id : ObjectId} {file : Value} {d : Document}

theorem primed_congr (hcells : t.cells = s.cells) (h : ∀ id, id < s.size → t.filled id = s.filled id) :
    t.primed = s.primed := by
  refine eq_of_cells hcells fun id hid => ?_
  have hid' : id < t.size := by rw [size, hcells]; exact hid
  rw [kept_primed hid', kept_primed (s := s) hid, h id hid]

theorem freshDocument?_eq_some (h : s.freshDocument? id = some d) :
    ∃ t, d = ⟨.text t, true⟩ ∧ s.lookup id "source" = .text t ∧
      ∃ kind label, s.kindName (.object id) = .ok kind ∧ s.text kind = .ok label := by
  rw [freshDocument?] at h
  rcases hkind : s.kindName (.object id) with m | kind
  · rw [hkind] at h
    cases h
  · rw [hkind] at h
    cases hsource : s.lookup id "source" with
    | text t =>
      rw [hsource] at h
      cases kind with
      | object other => cases h
      | _ => cases h; exact ⟨t, rfl, rfl, _, _, rfl, rfl⟩
    | _ =>
      rw [hsource] at h
      cases kind <;> cases h

theorem settled_freshDocument? (id : ObjectId) : (s.freshDocument? id).map Document.settled = s.freshDocument? id := by
  cases h : s.freshDocument? id with
  | none => rfl
  | some d =>
    obtain ⟨t, rfl, -⟩ := freshDocument?_eq_some h
    rfl

theorem filled_primed (hid : id < s.size) : s.primed.filled id = s.filled id := by
  have hnames : ((s.kept id).slotNames.or (s.listing? id)).or (s.listing? id) =
      (s.kept id).slotNames.or (s.listing? id) := by
    rw [Option.or_assoc, Option.or_self]
  have hdocument : ((((s.kept id).document.map Document.settled).or (s.freshDocument? id)).map Document.settled).or
      (s.freshDocument? id) = ((s.kept id).document.map Document.settled).or (s.freshDocument? id) := by
    cases (s.kept id).document with
    | none =>
      rw [Option.map_none, Option.none_or, settled_freshDocument?, Option.or_self]
    | some d => simp [Document.settled_settled]
  rw [filled, kept_primed hid, listing?_withKept, freshDocument?_withKept, filled]
  simp only [hnames, hdocument]

/-! ## Documents -/

theorem filled_keep {change : Kept → Kept} (s : Store) (id i : ObjectId) :
    (s.keep id change).filled i =
      { slotNames := (((s.keep id change).kept i).slotNames).or (s.listing? i)
        document := (((s.keep id change).kept i).document.map Document.settled).or (s.freshDocument? i) } := by
  rw [filled, listing?_of_cells (s := s) (t := s.keep id change) rfl,
    freshDocument?_of_cells (s := s) (t := s.keep id change) rfl]

/-- A document that is kept in a primed store is kept in the store. -/
theorem primed_keepDocument (s : Store) (id : ObjectId) (d : Document) :
    (s.primed.keep id ({ · with document := some d })).primed = (s.keep id ({ · with document := some d })).primed := by
  refine primed_congr rfl fun i hi => ?_
  have hi' : i < s.size := hi
  rw [filled_keep, filled_keep, listing?_withKept, freshDocument?_withKept, kept_keep, kept_keep]
  have hfilled := filled_primed hi'
  rw [filled, filled, listing?_withKept, freshDocument?_withKept] at hfilled
  simp only [Kept.mk.injEq, and_true] at hfilled
  split
  · rename_i heq
    rw [if_pos (show i = id ∧ id < s.size from heq)]
    simp only [Kept.mk.injEq, and_true]
    exact heq.1 ▸ hfilled.1
  · rename_i heq
    rw [if_neg (show ¬ (i = id ∧ id < s.size) from heq)]
    simp only [Kept.mk.injEq, and_true]
    exact hfilled

/-- Tags do not count. -/
theorem primed_keepTags (s : Store) (id : ObjectId) (tags : Tags) :
    (s.keep id ({ · with tags })).primed = s.primed := by
  refine primed_congr rfl fun i hi => ?_
  rw [filled_keep, kept_keep, filled]
  split <;> rfl

theorem lt_size_of_document (h : (s.kept id).document = some d) : id < s.size := by
  refine Nat.lt_of_not_le fun hge => ?_
  rw [s.kept_new id hge] at h
  cases h

theorem document_eq_of_none (h : (s.kept id).document = none) :
    s.document (.object id) = (do
      let _ ← s.text (← s.kindName (.object id))
      let d : Document := { content := s.lookup id "source" }
      return (d, s.keep id ({ · with document := some d }))) := by
  rw [document, h]

/-- A document that was kept, or that is made of a text, is the one that the primed store keeps. -/
theorem document_of_primed (h : (s.primed.kept id).document = some d) :
    ∃ own t, s.document (.object id) = .ok (own, t) ∧ own.settled = d ∧ t.primed = s.primed := by
  have hid : id < s.size := lt_size_of_document (s := s.primed) h
  rw [kept_primed hid, filled] at h
  dsimp only at h
  cases hkept : (s.kept id).document with
  | some own =>
    rw [hkept] at h
    exact ⟨own, s, by rw [document, hkept], Option.some.inj h, rfl⟩
  | none =>
    rw [hkept] at h
    obtain ⟨t, rfl, hsource, kind, label, hkind, hlabel⟩ := freshDocument?_eq_some h
    refine ⟨⟨.text t, false⟩, s.keep id ({ · with document := some ⟨.text t, false⟩ }), ?_, rfl, ?_⟩
    · rw [document_eq_of_none hkept]
      simp only [bind, Except.bind, hkind, hlabel, hsource]
      rfl
    · refine primed_congr rfl fun i hi => ?_
      rw [filled_keep, kept_keep, filled]
      split
      · rename_i heq
        rw [heq.1, hkept]
        exact congrArg (Kept.mk _ · _) h.symm
      · rfl

/-- The documents in two stores that are the same once primed. -/
theorem document_same (h : t.primed = s.primed) (file : Value) :
    (∃ m, s.document file = .error m ∧ t.document file = .error m) ∨
      ∃ d u d' u', s.document file = .ok (d, u) ∧ t.document file = .ok (d', u') ∧ d'.settled = d.settled ∧
        u'.primed = u.primed := by
  have hcells := cells_of_primed h
  have hkindName : t.kindName = s.kindName := by rw [eq_withKept hcells, kindName_withKept]
  cases file with
  | object id =>
    cases hprimed : (s.primed.kept id).document with
    | some d =>
      obtain ⟨own, u, hdocument, hown, hu⟩ := document_of_primed hprimed
      obtain ⟨own', u', hdocument', hown', hu'⟩ := document_of_primed (s := t) (by rw [h]; exact hprimed)
      exact .inr ⟨own, u, own', u', hdocument, hdocument', hown'.trans hown.symm, by rw [hu', hu, h]⟩
    | none =>
      have hnone : ∀ {s : Store}, (s.primed.kept id).document = none → (s.kept id).document = none := by
        intro s hprimed
        cases hkept : (s.kept id).document with
        | none => rfl
        | some d =>
          rw [kept_primed (lt_size_of_document hkept), filled, hkept] at hprimed
          cases hprimed
      rw [document_eq_of_none (hnone hprimed), document_eq_of_none (s := t) (hnone (by rw [h]; exact hprimed)),
        hkindName, show t.text = s.text by rw [eq_withKept hcells, text_withKept],
        show t.lookup = s.lookup by rw [eq_withKept hcells, lookup_withKept]]
      rcases s.kindName (.object id) with m | kind
      · exact .inl ⟨m, rfl, rfl⟩
      · rcases hlabel : s.text kind with m | label
        · exact .inl ⟨m, by simp only [bind, Except.bind, hlabel], by simp only [bind, Except.bind, hlabel]⟩
        · refine .inr ⟨_, _, _, _, by simp only [bind, Except.bind, hlabel]; rfl,
            by simp only [bind, Except.bind, hlabel]; rfl, rfl, ?_⟩
          rw [← primed_keepDocument, ← primed_keepDocument (s := s), h]
  | _ =>
    simp only [document, hkindName]
    rcases s.kindName _ with m | kind
    · exact .inl ⟨m, rfl, rfl⟩
    · exact .inl ⟨.noMembers, rfl, rfl⟩

theorem noteLines_primed_of_none {id : ObjectId} (h : (s.kept id).document = none) :
    s.primed.noteLines (.object id) = s.primed := by
  cases hprimed : (s.primed.kept id).document with
  | none => rw [noteLines, hprimed]
  | some d =>
    have hid : id < s.size := lt_size_of_document (s := s.primed) hprimed
    have hfresh := hprimed
    rw [kept_primed hid, filled, h] at hfresh
    obtain ⟨t, rfl, -⟩ := freshDocument?_eq_some hfresh
    rw [noteLines, hprimed]
    rfl

/-- The lines of a text count as found in a primed store already. -/
theorem primed_noteLines (s : Store) (file : Value) : (s.noteLines file).primed = s.primed.noteLines file := by
  cases file with
  | object id =>
    cases hkept : (s.kept id).document with
    | none => rw [noteLines_primed_of_none hkept, noteLines, hkept]
    | some d =>
      have hid := lt_size_of_document hkept
      have hprimed : (s.primed.kept id).document = some d.settled := by
        rw [kept_primed hid, filled, hkept]
        rfl
      rw [noteLines, noteLines, hkept, hprimed]
      dsimp only
      by_cases hcounted : d.counted = true
      · rw [Document.settled_of_counted hcounted, if_pos hcounted, if_pos hcounted]
      rw [if_neg hcounted]
      -- Where the lines of a text are found, the primed store stays; where it is no text, both change.
      by_cases hsettled : d.settled.counted = true
      · rw [if_pos hsettled]
        have hsame : Document.settled { d with counted := true } = d.settled := by
          rw [Document.settled_of_counted rfl, Document.eq_of_counted hsettled]
        refine primed_congr rfl fun i hi => ?_
        rw [filled_keep, kept_keep, filled]
        split
        · rename_i heq
          rw [heq.1, hkept, Option.map_some, Option.map_some, hsame]
        · rfl
      · rw [if_neg hsettled]
        have hsame : d.settled = d := Document.settled_of_not_counted (Bool.eq_false_iff.mpr hsettled)
        refine eq_of_cells rfl fun i hi => ?_
        have hi' : i < s.size := hi
        rw [kept_primed (s := s.keep id _) hi', filled_keep, kept_keep, kept_keep, kept_primed hi', filled]
        by_cases heq : i = id
        · rw [if_pos ⟨heq, hid⟩, if_pos (show i = id ∧ id < s.primed.size from ⟨heq, hid⟩), hsame, Option.map_some,
            Document.settled_of_counted rfl]
          rfl
        · rw [if_neg fun h => heq h.1, if_neg fun h => heq h.1]
  | _ => rfl

/-! What is asked of a document is the same whether the lines of a text have been found or not. -/

theorem lineStarts_settled (s : Store) (d : Document) : s.lineStarts d.settled = s.lineStarts d := by
  rcases d with ⟨content, counted⟩
  cases content <;> rfl

theorem clampedOffset_settled (s : Store) (d : Document) : s.clampedOffset d.settled = s.clampedOffset d := by
  rcases d with ⟨content, counted⟩
  cases content <;> rfl

theorem positionIn_settled (s : Store) (d : Document) : s.positionIn d.settled = s.positionIn d := by
  rcases d with ⟨content, counted⟩
  cases content <;> rfl

theorem offsetIn_settled (s : Store) (d : Document) : s.offsetIn d.settled = s.offsetIn d := by
  rcases d with ⟨content, counted⟩
  cases content <;> rfl

end Store

/-! ## Building -/

namespace Building

open Store

variable {α β : Type} {x : Building α} {f : α → Building β}

/-- Work that comes to the same whatever is kept beside objects, and never stops at slots that have to be listed. -/
structure Blind (work : Building α) : Prop where
  outcome : ∀ s k, (work (s.withKept k)).1 = (work s).1
  cells : ∀ s k, (work (s.withKept k)).2.cells = (work s).2.cells
  listed : ∀ s, Attempt.Listed (work s).1

theorem blind_pure (a : α) : Blind (pure a) := ⟨fun _ _ => rfl, fun _ _ => rfl, fun _ => Attempt.listed_ok a⟩

theorem blind_read {work : Store → Attempt α} (h : ∀ s k, work (s.withKept k) = work s) (hl : ∀ s, (work s).Listed) :
    Blind (read work) := ⟨h, fun _ _ => rfl, hl⟩

theorem blind_add (o : Object) : Blind (add o) := ⟨fun _ _ => rfl, fun _ _ => rfl, fun _ => Attempt.listed_ok _⟩

theorem blind_update {work : Store → Store} (h : ∀ s k, (work (s.withKept k)).cells = (work s).cells) :
    Blind (update work) := ⟨fun _ _ => rfl, h, fun _ => Attempt.listed_ok ()⟩

theorem blind_change {work : Store → Attempt Change} (h : ∀ s k, work (s.withKept k) = work s)
    (hl : ∀ s, (work s).Listed) : Blind (change work) := by
  refine ⟨fun s k => ?_, fun s k => ?_, fun s id hid => ?_⟩
  · rw [change, change, h]
    cases work s <;> rfl
  · rw [change, change, h]
    cases work s <;> rfl
  · rw [change] at hid
    cases hwork : work s with
    | ok c =>
      rw [hwork] at hid
      cases hid
    | error failure =>
      rw [hwork] at hid
      obtain rfl : failure = .unlisted id := Except.error.inj hid
      exact hl s id hwork

theorem Blind.bind (hx : Blind x) (hf : ∀ a, Blind (f a)) : Blind (x >>= f) := by
  have hrun : ∀ s k, ((x >>= f) (s.withKept k)).1 = ((x >>= f) s).1 ∧
      ((x >>= f) (s.withKept k)).2.cells = ((x >>= f) s).2.cells := by
    intro s k
    have houtcome := hx.outcome s k
    have hcells := hx.cells s k
    rcases hrun : x s with ⟨outcome, t⟩
    rcases hrun' : x (s.withKept k) with ⟨outcome', t'⟩
    rw [hrun, hrun'] at houtcome hcells
    dsimp only at houtcome hcells
    subst houtcome
    cases outcome' with
    | error failure =>
      rw [bind_error hrun, bind_error hrun']
      exact ⟨rfl, hcells⟩
    | ok a =>
      rw [bind_ok hrun, bind_ok hrun', eq_withKept hcells]
      exact ⟨(hf a).outcome t _, (hf a).cells t _⟩
  refine ⟨fun s k => (hrun s k).1, fun s k => (hrun s k).2, fun s => ?_⟩
  have hlisted := hx.listed s
  rcases hrun : x s with ⟨outcome, t⟩
  rw [hrun] at hlisted
  cases outcome with
  | error failure =>
    rw [bind_error hrun]
    exact fun id h => hlisted id (by cases h; rfl)
  | ok a =>
    rw [bind_ok hrun]
    exact (hf a).listed t

theorem Blind.forM {f : α → Building Unit} (hf : ∀ a, Blind (f a)) (as : List α) : Blind (as.forM f) := by
  induction as with
  | nil => exact blind_pure ()
  | cons a as ih => exact (hf a).bind fun _ => ih

theorem Blind.forgetting (hx : Blind x) : Blind x.forgetting := by
  have hcells : ∀ s, (x.forgetting s).2.cells = match (x s).1 with
      | .ok _ => (x s).2.cells
      | .error _ => if (x s).2.cells.take s.size = s.cells then s.cells else (x s).2.cells := by
    intro s
    rw [Building.forgetting]
    rcases x s with ⟨outcome, t⟩
    cases outcome with
    | ok a => rfl
    | error failure =>
      dsimp only
      split <;> rfl
  have houtcome : ∀ s, (x.forgetting s).1 = (x s).1 := by
    intro s
    rw [Building.forgetting]
    rcases x s with ⟨outcome, t⟩
    cases outcome <;> rfl
  refine ⟨fun s k => ?_, fun s k => ?_, fun s => ?_⟩
  · rw [houtcome, houtcome, hx.outcome]
  · rw [hcells, hcells, hx.outcome, hx.cells]
    rfl
  · rw [houtcome]
    exact hx.listed s

end Building

namespace Store

open Building

variable {α β : Type} {s : Store}

theorem listed_refuse (cause : Malformation) (kind : Value) : (refuse cause kind : Attempt α).Listed :=
  Attempt.listed_fault _

theorem listed_checkSlot (kind : Value) (slot : Text) (arity : Value) (given : SlotValue) :
    (s.checkSlot kind slot arity given).Listed := by
  have hentries : ∀ vs, (s.checkEntries kind slot vs).Listed := by
    intro vs
    rw [checkEntries]
    split
    · exact Attempt.listed_ok _
    · exact listed_refuse _ _
  unfold checkSlot
  split
  · unfold checkMany
    split
    · exact hentries _
    · split
      · split
        · exact Attempt.listed_ok _
        · exact listed_refuse _ _
      · split
        · exact Attempt.listed_misuse _
        · split
          · exact hentries _
          · exact listed_refuse _ _
  · unfold checkOne
    split
    · exact listed_refuse _ _
    · split
      · exact Attempt.listed_ok _
      · split
        · exact listed_refuse _ _
        · split
          · exact Attempt.listed_ok _
          · exact listed_refuse _ _

theorem listed_checkSlotChildren (kind : Value) (slot : Text) (seen children : List Value) :
    (s.checkSlotChildren kind slot seen children).Listed := by
  have hchild : ∀ child, (s.checkChild kind slot child).Listed := by
    intro child
    unfold checkChild
    split
    · split
      · split
        · exact listed_refuse _ _
        · split
          · exact listed_malformed _ _
          · exact Attempt.listed_ok _
      · split
        · exact listed_refuse _ _
        · exact Attempt.listed_ok _
    · exact Attempt.listed_ok _
  induction children generalizing seen with
  | nil => exact Attempt.listed_ok _
  | cons child rest ih =>
    rw [checkSlotChildren]
    split
    · exact listed_refuse _ _
    · exact (hchild child).bind fun _ => ih _

theorem listed_foldlM {f : β → α → Attempt β} (h : ∀ b a, (f b a).Listed) (as : List α) (b : β) :
    (as.foldlM f b).Listed := by
  induction as generalizing b with
  | nil => exact Attempt.listed_ok b
  | cons a as ih =>
    rw [List.foldlM_cons]
    exact (h b a).bind fun _ => ih _

theorem listed_attachable (p : Plan) (slots : ObjectId) : (s.attachable p slots).Listed := by
  refine (listed_foldlM (fun seen slot => ?_) _ _).bind fun _ => Attempt.listed_ok _
  exact (Attempt.listed_ofMisuse _).bind fun _ => listed_checkSlotChildren _ _ _ _

theorem blind_place (checked : SlotValue) : Blind (place checked) := by
  cases checked with
  | one v => exact blind_pure v
  | many values => exact (blind_add _).bind fun _ => blind_pure _

theorem blind_fillSlot (p : Plan) (input : Input) (record : ObjectId) (slot : Text) (arity : Value) :
    Blind (fillSlot p input record slot arity) := by
  rw [fillSlot_def]
  refine (blind_read (fun s k => by rw [checkSlot_withKept]) fun s => listed_checkSlot _ _ _ _).bind fun checked =>
    (blind_place checked).bind fun value => blind_change (fun s k => ?_) fun s => Attempt.listed_ofMisuse _
  rw [assignment_withKept]

theorem blind_makeSlots (p : Plan) (input : Input) : Blind (makeSlots p input) := by
  rw [makeSlots_def]
  split
  · exact blind_read (fun _ _ => rfl) fun _ => listed_refuse _ _
  · exact (blind_add _).bind fun record => (Blind.forM (fun entry => blind_fillSlot p input record _ _) _).bind fun _ =>
      (blind_update fun _ _ => rfl).bind fun _ => blind_pure _

theorem blind_attach (p : Plan) (n : Node) : Blind (attach p n) := by
  rw [attach_def]
  refine (blind_read (fun s k => by rw [attachable_withKept]) fun s => listed_attachable p n.slots).bind fun children =>
    (blind_add _).bind fun id => (Blind.forM (fun child => ?_) children).bind fun _ => blind_pure _
  refine blind_change (fun s k => by rw [link_withKept]) fun s => ?_
  cases child with
  | object child => exact Attempt.listed_ok _
  | _ => exact Attempt.listed_misuse _

theorem blind_create (v : Variant) (input : Input) : Blind (create v input) := by
  rw [create_def]
  split
  · exact blind_read (fun _ _ => rfl) fun _ => listed_refuse _ _
  · exact ((blind_makeSlots _ input).bind fun slots => blind_attach _ _).forgetting

theorem blind_addFileBy (p : Plan) (variant : Variant) (assigned : Members Value) (kind : Value) (source : Source)
    (input : Input) : Blind (addFileBy p variant assigned kind source input) := by
  rw [addFileBy_def]
  refine Blind.forgetting ((blind_makeSlots p input).bind fun slots =>
    (blind_read (fun s k => ?_) fun s => ?_).bind fun _ => blind_attach _ _)
  · rw [endOfFileToken?_withKept]
  · split
    · exact Attempt.listed_ok _
    · exact listed_refuse _ _

/-- Blind work comes to the same in the primed store. -/
theorem foresees_blind {work : Building α} (h : Blind work) (s : Store) :
    s.Foresees (fun r => Attempt.failure? r.1) (Session.buildResult work s) (Session.buildResult work s.primed) := by
  have hsame : Session.buildResult work s.primed = Session.buildResult work s :=
    Prod.ext (h.outcome s _) (h.cells s _)
  rw [hsame]
  exact .same fun id hid => absurd (Attempt.eq_error_of_failure? hid) (h.listed s id)

/-- So does blind work that goes by something that is read first, unless the reading stops at slots that have to be
listed. -/
theorem foresees_read_bind {work : Store → Attempt β} {f : β → Building α} (h : s.Matches (work s) (work s.primed))
    (hf : ∀ b, Blind (f b)) :
    s.Foresees (fun r => Attempt.failure? r.1) (Session.buildResult (Building.read work >>= f) s)
      (Session.buildResult (Building.read work >>= f) s.primed) := by
  have hread : ∀ (s : Store) (failure : Failure), work s = .error failure →
      Session.buildResult (Building.read work >>= f) s = (.error failure, s.cells) := by
    intro s failure hwork
    rw [Session.buildResult, Building.bind_error (show Building.read work s = (.error failure, s) by
      rw [Building.read, hwork])]
  have hgo : ∀ (s : Store) (b : β), work s = .ok b →
      Session.buildResult (Building.read work >>= f) s = Session.buildResult (f b) s := by
    intro s b hwork
    rw [Session.buildResult, Building.bind_ok (show Building.read work s = (.ok b, s) by rw [Building.read, hwork])]
    rfl
  generalize hx : work s = x at h
  generalize hy : work s.primed = y at h
  cases h with
  | same hbarren =>
    cases x with
    | error failure =>
      rw [hread s failure hx, hread s.primed failure hy]
      exact .same fun id hid => hbarren id (congrArg Except.error (Option.some.inj hid))
    | ok b =>
      rw [hgo s b hx, hgo s.primed b hy]
      exact foresees_blind (hf b) s
  | @unlisted id hid y =>
    rw [hread s _ hx]
    refine .unlisted ?_ hid _
    rfl

theorem foresees_addOtherFile (variant kind : Value) (source : Source) (input : Input) (s : Store) :
    s.Foresees (fun r => Attempt.failure? r.1) (Session.buildResult (addOtherFile variant kind source input) s)
      (Session.buildResult (addOtherFile variant kind source input) s.primed) := by
  refine foresees_read_bind (matches_planFor variant input) fun p => ?_
  refine (blind_read (fun s k => by rw [member_withKept]) fun s => Attempt.listed_ofMisuse _).bind fun kind => ?_
  exact blind_addFileBy ..

/-! ## Grammars -/

theorem expands_addAll (s : Store) (os : List Object) : s.Expands (s.addAll os) where
  size_le := by
    rw [size_addAll]
    exact Nat.le_add_right ..
  stays {id c} hc := ⟨c, by rw [cell?_addAll, if_pos (lt_size_of_cell? hc), hc], .refl c⟩
  kept := rfl

/-! ## Links -/

/-- Recording a source file changes links alone. -/
theorem expands_recordRoot (s : Store) (root : ObjectId) (nodes : List ObjectId) :
    s.Expands (s.recordRoot root nodes) := by
  have hfold : ∀ t, s.Expands t → s.Expands (t.recordRoot root nodes) := by
    unfold recordRoot
    induction nodes with
    | nil => exact fun _ h => h
    | cons id nodes ih => exact fun t h => ih _ (h.modify fun _ c _ => ⟨⟨[], rfl⟩, rfl⟩)
  exact hfold s (.refl s)

theorem cells_modify (s : Store) (id : ObjectId) (change : Cell → Cell) :
    (s.modify id change).cells = s.cells.modify id change := rfl

theorem cells_recordRoot {s t : Store} (h : t.cells = s.cells) (root : ObjectId) (nodes : List ObjectId) :
    (t.recordRoot root nodes).cells = (s.recordRoot root nodes).cells := by
  unfold recordRoot
  induction nodes generalizing s t with
  | nil => exact h
  | cons id nodes ih =>
    refine ih ?_
    dsimp only
    rw [cells_modify, cells_modify, h]

theorem sameObjects_modify (s : Store) (id : ObjectId) {change : Cell → Cell} (h : ∀ c, (change c).core = c.core) :
    s.SameObjects (s.modify id change) := by
  refine Array.ext_getElem? fun i => ?_
  rw [Array.getElem?_map, Array.getElem?_map,
    show (s.modify id change).cells[i]? = (s.modify id change).cell? i from rfl, cell?_modify]
  split
  · rw [Option.map_map, show Cell.core ∘ change = Cell.core from funext h]
    rfl
  · rfl

theorem sameObjects_recordRoot (s : Store) (root : ObjectId) (nodes : List ObjectId) :
    s.SameObjects (s.recordRoot root nodes) := by
  unfold recordRoot
  induction nodes generalizing s with
  | nil => exact .refl s
  | cons id nodes ih =>
    refine SameObjects.trans ?_ (ih _)
    exact sameObjects_modify s id fun _ => rfl

end Store

/-- A new session stays in order when objects are added that refer to nothing but what is there. -/
theorem Session.inOrder_addAll {now : Number} {stamp : Text}
    (hstamp : Timestamp.ofInstant (Timestamp.instant now) = .ok stamp) (os : List Object)
    (hcontained : ((start now).store.addAll os).Contained) :
    InOrder { start now with store := (start now).store.addAll os } where
  level := ⟨_, rfl⟩
  stamp := ⟨stamp, hstamp⟩
  grammar := ⟨_, (hasLogger_start now rfl).expands (Store.expands_addAll ..)⟩
  schema := ⟨_, (hasLogger_start now rfl).expands (Store.expands_addAll ..)⟩
  tree := ⟨_, (hasLogger_start now rfl).expands (Store.expands_addAll ..)⟩
  contained := hcontained

end LosslessSyntax
