import LosslessSyntax.Session

/-!
# What is kept beside objects

Slot names, documents and tags are kept beside the objects of a store, and only three functions read them:
`Store.slotNamesOf`, `Store.document` and `Store.loggerFor`. `Store.withKept` puts something else there; whatever does
not use one of the three gives the same in the store that it leaves.
-/

namespace LosslessSyntax

namespace Store

/-- A store with something else kept beside its objects. -/
def withKept (s : Store) (kept : ObjectId → Kept) : Store where
  cells := s.cells
  kept id := if id < s.cells.size then kept id else {}
  kept_new _ hid := if_neg (Nat.not_lt.mpr hid)

theorem eq_of_cells {s t : Store} (h : t.cells = s.cells) (hkept : ∀ id, id < s.size → t.kept id = s.kept id) :
    t = s := by
  have hall : t.kept = s.kept := funext fun id => by
    by_cases hid : id < s.size
    · exact hkept id hid
    · rw [s.kept_new id (Nat.not_lt.mp hid), t.kept_new id (by rw [h]; exact Nat.not_lt.mp hid)]
  cases s
  cases t
  cases h
  cases hall
  rfl

theorem eq_withKept {s t : Store} (h : t.cells = s.cells) : t = s.withKept t.kept :=
  eq_of_cells h fun _ hid => (if_pos hid).symm

variable (s : Store) (k : ObjectId → Kept)

/-! ## Members -/

@[simp] theorem size_withKept : (s.withKept k).size = s.size := rfl

@[simp] theorem cell?_withKept : (s.withKept k).cell? = s.cell? := rfl

@[simp] theorem object?_withKept : (s.withKept k).object? = s.object? := rfl

@[simp] theorem base?_withKept : (s.withKept k).base? = s.base? := rfl

@[simp] theorem chainFrom_withKept : (s.withKept k).chainFrom = s.chainFrom := by
  funext n
  induction n with
  | zero => rfl
  | succ n ih => simp [chainFrom, ih]

@[simp] theorem chain_withKept : (s.withKept k).chain = s.chain := by
  funext id
  simp [chain]

@[simp] theorem leadsFrom_withKept : (s.withKept k).leadsFrom = s.leadsFrom := by
  funext target n
  induction n with
  | zero => rfl
  | succ n ih => simp [leadsFrom, ih]

@[simp] theorem isA_withKept : (s.withKept k).isA = s.isA := by
  funext g id
  simp [isA, leadsTo]

@[simp] theorem leadsTo_withKept : (s.withKept k).leadsTo = s.leadsTo := by
  funext id target
  simp [leadsTo]

@[simp] theorem maker?_withKept : (s.withKept k).maker? = s.maker? := by
  funext id
  simp [maker?]

@[simp] theorem seekFrom_withKept : (s.withKept k).seekFrom = s.seekFrom := by
  funext name n
  induction n with
  | zero => rfl
  | succ n ih => simp [seekFrom, ih]

@[simp] theorem seek_withKept : (s.withKept k).seek = s.seek := by
  funext id name
  simp [seek]

@[simp] theorem lookup_withKept : (s.withKept k).lookup = s.lookup := by
  funext id name
  simp [lookup, groundMember]

@[simp] theorem operationHolder?_withKept : (s.withKept k).operationHolder? = s.operationHolder? := by
  funext v name
  simp [operationHolder?]

@[simp] theorem member_withKept : (s.withKept k).member = s.member := by
  funext name v
  cases v <;> simp [member]

@[simp] theorem own?_withKept : (s.withKept k).own? = s.own? := by
  funext v name
  simp [own?]

@[simp] theorem listed_withKept : (s.withKept k).listed = s.listed := by
  funext v
  cases v <;> simp [listed]

@[simp] theorem names_withKept : (s.withKept k).names = s.names := by
  funext v
  simp [names]

@[simp] theorem chainNamesFrom_withKept : (s.withKept k).chainNamesFrom = s.chainNamesFrom := by
  funext seen ids
  induction ids generalizing seen with
  | nil => rfl
  | cons id ids ih => simp [chainNamesFrom, ih]

/-! ## Lists -/

@[simp] theorem isList_withKept : (s.withKept k).isList = s.isList := by
  funext v
  simp [isList]

@[simp] theorem element?_withKept : (s.withKept k).element? = s.element? := by
  funext id index
  simp [element?]

@[simp] theorem elementsBelow_withKept : (s.withKept k).elementsBelow = s.elementsBelow := by
  funext id length
  simp [elementsBelow, chainNames]

@[simp] theorem items?_withKept : (s.withKept k).items? = s.items? := by
  funext v
  simp [items?]

@[simp] theorem isIterable_withKept : (s.withKept k).isIterable = s.isIterable := by
  funext v
  simp [isIterable]

/-! ## Texts and numbers -/

@[simp] theorem lengthBy_withKept (textOf : Value → Except Misuse Text) :
    lengthBy textOf (s.withKept k) = lengthBy textOf s := by
  funext id
  simp [lengthBy]

@[simp] theorem elementsBy_withKept (textOf : Value → Except Misuse Text) :
    elementsBy textOf (s.withKept k) = elementsBy textOf s := by
  funext id
  simp [elementsBy]

@[simp] theorem joinBy_withKept (textOf : Value → Except Misuse Text) :
    joinBy textOf (s.withKept k) = joinBy textOf s := by
  funext separator id
  simp [joinBy]

@[simp] theorem textAt_withKept : (s.withKept k).textAt = s.textAt := by
  funext depth
  induction depth with
  | zero =>
    funext path v
    cases v <;> rfl
  | succ depth ih =>
    funext path v
    cases v with
    | object id => simp [textAt, ih, textForm?, label, canJoin]
    | _ => rfl

@[simp] theorem text_withKept : (s.withKept k).text = s.text := by
  funext v
  simp [text]

@[simp] theorem primitive_withKept : (s.withKept k).primitive = s.primitive := by
  funext v
  cases v <;> simp [primitive]

@[simp] theorem toNumber_withKept : (s.withKept k).toNumber = s.toNumber := by
  funext v
  simp [toNumber]

@[simp] theorem length_withKept : (s.withKept k).length = s.length := by
  funext id
  simp [length]

@[simp] theorem elements_withKept : (s.withKept k).elements = s.elements := by
  funext id
  simp [elements]

@[simp] theorem arithmetic_withKept : (s.withKept k).arithmetic = s.arithmetic := by
  funext onNumbers onIntegers a b
  simp [arithmetic]

@[simp] theorem minus_withKept : (s.withKept k).minus = s.minus := by
  funext a b
  simp [minus]

@[simp] theorem plus_withKept : (s.withKept k).plus = s.plus := by
  funext a b
  simp [plus]

@[simp] theorem lessThan_withKept : (s.withKept k).lessThan = s.lessThan := by
  funext a b
  simp [lessThan]

@[simp] theorem atMost_withKept : (s.withKept k).atMost = s.atMost := by
  funext a b
  simp [atMost]

/-! ## Sequences -/

@[simp] theorem checkRenewal_withKept : (s.withKept k).checkRenewal = s.checkRenewal := by
  funext id count
  simp [checkRenewal]

@[simp] theorem listFor_withKept : (s.withKept k).listFor = s.listFor := by
  funext operation v
  simp [listFor]

@[simp] theorem mapped_withKept : (s.withKept k).mapped = s.mapped := by
  funext v
  simp [mapped]

@[simp] theorem part_withKept : (s.withKept k).part = s.part := by
  funext whole first last
  simp [part]

end Store

namespace TokenFields

variable (s : Store) (k : ObjectId → Kept)

@[simp] theorem ofValue_withKept : ofValue (s.withKept k) = ofValue s := by
  funext v
  simp [ofValue]

@[simp] theorem stop_withKept : stop (s.withKept k) = stop s := by
  funext f
  simp [stop]

@[simp] theorem width_withKept : width (s.withKept k) = width s := by
  funext f
  simp [width]

@[simp] theorem leadingTrivia_withKept : leadingTrivia (s.withKept k) = leadingTrivia s := by
  funext f source
  simp [leadingTrivia]

@[simp] theorem text_withKept : text (s.withKept k) = text s := by
  funext f source
  simp [text]

@[simp] theorem fullText_withKept : fullText (s.withKept k) = fullText s := by
  funext f source
  simp [fullText]

end TokenFields

/-! ## Data -/

@[simp] theorem Store.jsonAt_withKept (s : Store) (k : ObjectId → Kept) : (s.withKept k).jsonAt = s.jsonAt := by
  funext depth
  induction depth with
  | zero =>
    funext path v
    cases v <;> rfl
  | succ depth ih =>
    funext path v
    cases v with
    | object id => simp [jsonAt, ih]
    | _ => rfl

namespace Data

variable (s : Store) (k : ObjectId → Kept)

@[simp] theorem member_withKept : member (s.withKept k) = member s := by
  funext name d
  cases d <;> simp [member]

@[simp] theorem entries_withKept : entries (s.withKept k) = entries s := by
  funext d
  cases d <;> simp [entries]

mutual

theorem text_withKept_apply : (d : Data) → text (s.withKept k) d = text s d
  | .leaf v => by simp [text]
  | .list items => by simp [text, itemTexts_withKept items]
  | .record _ => rfl
  | .error .. => rfl

theorem itemTexts_withKept : (items : List Data) → itemTexts (s.withKept k) items = itemTexts s items
  | [] => rfl
  | item :: rest => by simp [itemTexts, text_withKept_apply item, itemTexts_withKept rest]

end

@[simp] theorem text_withKept : text (s.withKept k) = text s := funext (text_withKept_apply s k)

mutual

theorem json_withKept_apply : (d : Data) → json (s.withKept k) d = json s d
  | .leaf v => by simp [json, Store.json]
  | .list items => by simp [json, jsonItems_withKept items]
  | .record members => by simp [json, jsonMembers_withKept members]
  | .error name payload cause => by simp [json, json_withKept_apply payload]

theorem jsonItems_withKept : (items : List Data) → jsonItems (s.withKept k) items = jsonItems s items
  | [] => rfl
  | item :: rest => by simp [jsonItems, json_withKept_apply item, jsonItems_withKept rest]

theorem jsonMembers_withKept :
    (members : List (Text × Data)) → jsonMembers (s.withKept k) members = jsonMembers s members
  | [] => rfl
  | (name, value) :: rest => by simp [jsonMembers, json_withKept_apply value, jsonMembers_withKept rest]

end

@[simp] theorem jsonText_withKept : jsonText (s.withKept k) = jsonText s := by
  funext style d
  simp [jsonText, json_withKept_apply]

end Data

namespace Store

variable (s : Store) (k : ObjectId → Kept)

/-! ## Nodes and tokens -/

@[simp] theorem token?_withKept : (s.withKept k).token? = s.token? := by
  funext id
  simp [token?, tokenOfMembers?]

@[simp] theorem node?_withKept : (s.withKept k).node? = s.node? := by
  funext id
  simp [node?]

@[simp] theorem isNode_withKept : (s.withKept k).isNode = s.isNode := by
  funext id
  simp [isNode]

@[simp] theorem isSourceFile_withKept : (s.withKept k).isSourceFile = s.isSourceFile := by
  funext id
  simp [isSourceFile]

@[simp] theorem isElement_withKept : (s.withKept k).isElement = s.isElement := by
  funext v
  cases v <;> simp [isElement]

@[simp] theorem namesNode_withKept : (s.withKept k).namesNode = s.namesNode := by
  funext v
  cases v <;> simp [namesNode]

@[simp] theorem namesSourceFile_withKept : (s.withKept k).namesSourceFile = s.namesSourceFile := by
  funext v
  cases v <;> simp [namesSourceFile]

@[simp] theorem madeVariant?_withKept : (s.withKept k).madeVariant? = s.madeVariant? := by
  funext v
  simp [madeVariant?]

@[simp] theorem kindName_withKept : (s.withKept k).kindName = s.kindName := by
  funext v
  simp [kindName]

@[simp] theorem arityIn?_withKept : (s.withKept k).arityIn? = s.arityIn? := by
  funext layout slot
  simp [arityIn?]

@[simp] theorem arity?_withKept : (s.withKept k).arity? = s.arity? := by
  funext v slot
  simp [arity?]

@[simp] theorem slotContent_withKept : (s.withKept k).slotContent = s.slotContent := by
  funext v slot
  simp [slotContent]

@[simp] theorem iterated_withKept : (s.withKept k).iterated = s.iterated := by
  funext content
  simp [iterated]

@[simp] theorem malformed_withKept {α : Type} : (s.withKept k).malformed (α := α) = s.malformed := by
  funext cause v
  simp [malformed]

@[simp] theorem detached_withKept {α : Type} : (s.withKept k).detached (α := α) = s.detached := by
  funext v
  simp [detached]

/-! ## Links -/

@[simp] theorem parent?_withKept : (s.withKept k).parent? = s.parent? := rfl

@[simp] theorem ancestorsWithin_withKept : (s.withKept k).ancestorsWithin = s.ancestorsWithin := by
  funext n
  induction n with
  | zero => rfl
  | succ n ih => simp [ancestorsWithin, ih]

@[simp] theorem ancestor?_withKept : (s.withKept k).ancestor? = s.ancestor? := by
  funext v kind
  cases v <;> simp [ancestor?, ancestors]

@[simp] theorem root_withKept : (s.withKept k).root = s.root := by
  funext v
  simp [root, topmost, ancestors]

@[simp] theorem source_withKept : (s.withKept k).source = s.source := by
  funext v
  simp [source]

@[simp] theorem endOfFile_withKept : (s.withKept k).endOfFile = s.endOfFile := by
  funext v
  simp [endOfFile]

@[simp] theorem declaredSlot_withKept : (s.withKept k).declaredSlot = s.declaredSlot := by
  funext v slot
  simp [declaredSlot]

@[simp] theorem child_withKept : (s.withKept k).child = s.child := by
  funext v slot
  simp [child]

@[simp] theorem list_withKept : (s.withKept k).list = s.list := by
  funext v slot
  simp [list]

/-! ## Items -/

@[simp] theorem slotEntries_withKept : (s.withKept k).slotEntries = s.slotEntries := by
  funext content
  simp [slotEntries]

@[simp] theorem slotItems_withKept : (s.withKept k).slotItems = s.slotItems := by
  funext v slot
  simp [slotItems]

@[simp] theorem elementOf?_withKept : (s.withKept k).elementOf? = s.elementOf? := by
  funext v
  cases v <;> simp [elementOf?]

@[simp] theorem read_withKept : (s.withKept k).read = s.read := by
  funext owner item
  cases item <;> simp [read]

@[simp] theorem itemsFrom_withKept : (s.withKept k).itemsFrom = s.itemsFrom := by
  have hslots : ∀ v slots index, (s.withKept k).itemsOfSlots v slots index = s.itemsOfSlots v slots index := by
    intro v slots
    induction slots with
    | nil => exact fun _ => rfl
    | cons slot rest ih =>
      intro index
      simp [itemsOfSlots, ih]
  funext c
  simp [itemsFrom, hslots]

/-! ## Measures -/

@[simp] theorem cut_withKept (source : Value) (t : Token) (ofText : Token → Text → Text)
    {ofFields : TokenFields → Store → Value → Except Misuse Data} (h : ∀ f, ofFields f (s.withKept k) = ofFields f s) :
    (s.withKept k).cut source t ofText ofFields = s.cut source t ofText ofFields := by
  cases source <;> simp [cut, h]

@[simp] theorem tokenText_withKept : (s.withKept k).tokenText = s.tokenText := by
  funext source t
  simp [tokenText]

@[simp] theorem tokenFullText_withKept : (s.withKept k).tokenFullText = s.tokenFullText := by
  funext source t
  simp [tokenFullText]

@[simp] theorem tokenTrivia_withKept : (s.withKept k).tokenTrivia = s.tokenTrivia := by
  funext source t
  simp [tokenTrivia]

@[simp] theorem addText_withKept : (s.withKept k).addText = s.addText := by
  funext first source texts t
  simp [addText]

@[simp] theorem nextNode?_withKept : (s.withKept k).nextNode? = s.nextNode? := by
  funext owner items
  induction items with
  | nil => rfl
  | cons item rest ih => simp [nextNode?, ih]

@[simp] theorem nodeAfter?_withKept : (s.withKept k).nodeAfter? = s.nodeAfter? := by
  funext owner v items
  induction items with
  | nil => rfl
  | cons item rest ih => simp [nodeAfter?, ih]

/-! ## Positions -/

@[simp] theorem tokenContains_withKept : (s.withKept k).tokenContains = s.tokenContains := by
  funext offset t
  simp [tokenContains]

@[simp] theorem lineStarts_withKept : (s.withKept k).lineStarts = s.lineStarts := by
  funext d
  simp [lineStarts]

@[simp] theorem beforeBreak_withKept : (s.withKept k).beforeBreak = s.beforeBreak := by
  funext d lineStart offset
  simp [beforeBreak]

@[simp] theorem clampedOffset_withKept : (s.withKept k).clampedOffset = s.clampedOffset := by
  funext d offset
  simp [clampedOffset]

@[simp] theorem positionIn_withKept : (s.withKept k).positionIn = s.positionIn := by
  funext d offset
  simp [positionIn]

@[simp] theorem lineStart_withKept : (s.withKept k).lineStart = s.lineStart := by
  funext starts line
  simp [lineStart]

@[simp] theorem offsetOfValues_withKept : (s.withKept k).offsetOfValues = s.offsetOfValues := by
  funext d line character
  simp [offsetOfValues]

@[simp] theorem offsetIn_withKept : (s.withKept k).offsetIn = s.offsetIn := by
  funext d line character
  simp [offsetIn]

/-! ## Rendering -/

@[simp] theorem registryFor_withKept : (s.withKept k).registryFor = s.registryFor := by
  funext v operation
  simp [registryFor]

@[simp] theorem grammarFor_withKept : (s.withKept k).grammarFor = s.grammarFor := by
  funext v operation
  simp [grammarFor]

@[simp] theorem tokenKindName_withKept : (s.withKept k).tokenKindName = s.tokenKindName := by
  funext grammar kind
  simp [tokenKindName]

@[simp] theorem askedFormat?_withKept : (s.withKept k).askedFormat? = s.askedFormat? := by
  funext options
  cases options <;> simp [askedFormat?]

@[simp] theorem renderToken_withKept : (s.withKept k).renderToken = s.renderToken := by
  funext grammar format v
  simp [renderToken]

@[simp] theorem renderSlot_withKept : (s.withKept k).renderSlot = s.renderSlot := by
  funext element content
  simp [renderSlot]

/-! ## Assignments -/

@[simp] theorem setBase_withKept : (s.withKept k).setBase = s.setBase := by
  funext id value
  simp [setBase]

@[simp] theorem setOn_withKept : (s.withKept k).setOn = s.setOn := by
  funext o name value
  simp [setOn, resized]

@[simp] theorem assignment_withKept : (s.withKept k).assignment = s.assignment := by
  funext id name value
  simp [assignment, target]

/-! ## Building -/

@[simp] theorem checkEntries_withKept : (s.withKept k).checkEntries = s.checkEntries := by
  funext kind slot values
  simp [checkEntries]

@[simp] theorem checkMany_withKept : (s.withKept k).checkMany = s.checkMany := by
  funext kind slot given
  cases given <;> simp [checkMany]

@[simp] theorem checkOne_withKept : (s.withKept k).checkOne = s.checkOne := by
  funext kind slot given
  cases given <;> simp [checkOne]

@[simp] theorem checkSlot_withKept : (s.withKept k).checkSlot = s.checkSlot := by
  funext kind slot arity given
  simp [checkSlot]

@[simp] theorem checkChild_withKept : (s.withKept k).checkChild = s.checkChild := by
  funext kind slot child
  simp [checkChild]

@[simp] theorem checkSlotChildren_withKept : (s.withKept k).checkSlotChildren = s.checkSlotChildren := by
  funext kind slot seen children
  induction children generalizing seen with
  | nil => rfl
  | cons child rest ih => simp [checkSlotChildren, ih]

@[simp] theorem attachable_withKept : (s.withKept k).attachable = s.attachable := by
  funext p slots
  simp [attachable]

@[simp] theorem link_withKept : (s.withKept k).link = s.link := by
  funext parent child
  cases child <;> simp [link]

@[simp] theorem endOfFileToken?_withKept : (s.withKept k).endOfFileToken? = s.endOfFileToken? := by
  funext kind slots
  simp [endOfFileToken?]

end Store

@[simp] theorem Input.ofValue_withKept (s : Store) (k : ObjectId → Kept) :
    Input.ofValue (s.withKept k) = Input.ofValue s := by
  funext v
  simp [Input.ofValue]

/-! ## Lines of the journal -/

@[simp] theorem Report.errorKind?_withKept (s : Store) (k : ObjectId → Kept) :
    Report.errorKind? (s.withKept k) = Report.errorKind? s := by
  funext d
  simp [Report.errorKind?]

namespace LogLine

variable (s : Store) (k : ObjectId → Kept)

@[simp] theorem payloadText_withKept : payloadText (s.withKept k) = payloadText s := by
  funext payload
  simp [payloadText]

@[simp] theorem namedErrorText_withKept : namedErrorText (s.withKept k) = namedErrorText s := by
  funext name payload
  simp [namedErrorText]

@[simp] theorem errorText_withKept : errorText (s.withKept k) = errorText s := by
  funext depth
  induction depth with
  | zero =>
    funext d
    simp [errorText, Report.payloadOf]
  | succ depth ih =>
    funext d
    rw [errorText, errorText]
    simp [Report.payloadOf, ih]

@[simp] theorem valueText_withKept : valueText (s.withKept k) = valueText s := by
  funext d
  simp [valueText]

end LogLine

/-! ## Decoding -/

namespace Store

variable (s : Store) (k : ObjectId → Kept)

@[simp] theorem isRecordLike_withKept : (s.withKept k).isRecordLike = s.isRecordLike := by
  funext v
  simp [isRecordLike]

@[simp] theorem isTable_withKept : (s.withKept k).isTable = s.isTable := by
  funext v
  cases v <;> simp [isTable, constructedBy?]

@[simp] theorem constructorWord_withKept : (s.withKept k).constructorWord = s.constructorWord := by
  funext id g
  simp [constructorWord]

@[simp] theorem messageWord_withKept : (s.withKept k).messageWord = s.messageWord := by
  funext word
  simp [messageWord]

@[simp] theorem kindText_withKept : (s.withKept k).kindText = s.kindText := by
  funext id
  simp [kindText, constructedBy?]

@[simp] theorem typeName_withKept : (s.withKept k).typeName = s.typeName := by
  funext v
  cases v with
  | number n => cases n <;> rfl
  | object id => simp [typeName]
  | _ => rfl

end Store

namespace Decoder

variable {α : Type} (s : Store) (k : ObjectId → Kept)

@[simp] theorem wrongType_withKept (expected : Text) :
    wrongType (α := α) expected (s.withKept k) = wrongType expected s := by
  funext v
  simp [wrongType]

@[simp] theorem nonEmptyString_withKept : nonEmptyString (s.withKept k) = nonEmptyString s := by
  funext v
  cases v <;> simp [nonEmptyString, lengthIssues]

@[simp] theorem natural_withKept : natural (s.withKept k) = natural s := by
  funext v
  cases v with
  | number n => cases n <;> simp [natural]
  | _ => simp [natural]

@[simp] theorem option_withKept (options : List (Text × α)) :
    option options (s.withKept k) = option options s := by
  funext v
  cases v <;> rfl

@[simp] theorem list_withKept {item : Decoder α} (h : item (s.withKept k) = item s) :
    list item (s.withKept k) = list item s := by
  funext v
  simp [list, h]

@[simp] theorem table_withKept (key : Text → Bool) {value : Decoder α} (h : value (s.withKept k) = value s) :
    table key value (s.withKept k) = table key value s := by
  funext v
  simp [table, h]

@[simp] theorem reader_withKept : reader (s.withKept k) = reader s := by
  funext v
  simp [reader]

@[simp] theorem field_withKept (name : Text) {inner : Decoder α} (h : inner (s.withKept k) = inner s) :
    field name inner (s.withKept k) = field name inner s := by
  funext read
  simp [field, h]

end Decoder

/-! ## Grammars -/

namespace Registry

variable (s : Store) (k : ObjectId → Kept)

@[simp] theorem add_withKept (r : Registry) : r.add (s.withKept k) = r.add s := by
  funext pair
  simp [add]

@[simp] theorem ofPairs_withKept : ofPairs (s.withKept k) = ofPairs s := by
  funext pairs
  simp [ofPairs]

@[simp] theorem ofElements_withKept : ofElements (s.withKept k) = ofElements s := by
  funext names
  simp [ofElements]

@[simp] theorem ofList_withKept : ofList (s.withKept k) = ofList s := by
  funext v
  simp [ofList]

@[simp] theorem ofTable_withKept : ofTable (s.withKept k) = ofTable s := by
  funext v
  simp [ofTable]

end Registry

namespace Definition

variable (s : Store) (k : ObjectId → Kept)

@[simp] theorem ofValue_withKept : ofValue (s.withKept k) = ofValue s := by
  have hlayout := Decoder.table_withKept s k isSlotName (Decoder.option_withKept s k arityWords)
  funext v
  simp [ofValue, decoder, hlayout]

@[simp] theorem readTrusting_withKept : readTrusting (s.withKept k) = readTrusting s := by
  funext v
  simp [readTrusting, entriesOf, layoutOf]

end Definition

namespace Grammar

variable (s : Store) (k : ObjectId → Kept)

@[simp] theorem define_withKept : define (s.withKept k) = define s := by
  funext self d
  simp [define, Registry.ofNames]

@[simp] theorem variantOf_withKept : variantOf (s.withKept k) = variantOf s := by
  funext g kind
  simp [variantOf]

end Grammar

end LosslessSyntax
