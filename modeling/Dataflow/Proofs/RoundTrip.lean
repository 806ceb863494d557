/-
# Functions load back from their texts

The text of a function, compact or pretty, loads as the function it was written from, and as its
first defect if it has one (`Func.load_written`).

Every part of a function has an encoding and a decoding, and the decoding undoes the encoding as
long as the numbers are machine words (`Json.Faithful`).  That is so of numbers and strings; lists,
optional values, records and choices pass it on from their parts; and a function is made of those.
-/
import Mathlib.Algebra.Order.Ring.Int
import Dataflow.Codec.Load
import Dataflow.Command.Run
import Dataflow.Proofs.JsonText

namespace Dataflow

/-! ## 1. Functions of machine words -/

/-- True of the numbers that are unsigned 32-bit words. -/
def isWord32 (n : Nat) : Bool := decide (n ≤ wordMax32)

/-- True of the numbers that are unsigned 64-bit words. -/
def isWord (n : Nat) : Bool := decide (n ≤ wordMax)

/-- The numbers of an index are words. -/
def Index.fits : Index → Bool
  | .iv l => isWord32 l
  | .const c => isInt64 c
  | .unknown => true
  | .tiled tile point => isWord32 tile && isWord32 point

/-- The numbers of an access are words. -/
def Access.fits (a : Access) : Bool := isWord32 a.memref && a.indices.all Index.fits

/-- The factor of a mark is a word. -/
def Mark.fits (m : Mark) : Bool := isWord m.factor

/-- The numbers of a loop header are words. -/
def Loop.fits (l : Loop) : Bool :=
  isInt64 l.lower && l.upper.all isInt64 && isInt64 l.step && l.pointOf.all isWord32
    && l.mark.all Mark.fits

/-- The numbers of a computation are words. -/
def Compute.fits (c : Compute) : Bool :=
  c.reads.all Access.fits && c.writes.all Access.fits
    && c.lanes.all fun lane => isWord32 lane.1 && isInt64 lane.2

/-- The annotations of a schedule are words. -/
def Schedule.fits (s : Schedule) : Bool :=
  s.increase.all (fun n => isWord n.val) && s.decrease.all fun n => isWord n.val

/-- The numbers in what an operation is are words. -/
def Kind.fits : Kind → Bool
  | .schedule s => s.fits
  | .node _ => true
  | .loop l => l.fits
  | .buffer result init => isWord32 result && init.all isInt64
  | .view source result => isWord32 source && isWord32 result
  | .copy source target => isWord32 source && isWord32 target
  | .compute c => c.fits

/-- The numbers of an operation are words. -/
def Op.fits (op : Op) : Bool :=
  isWord32 op.id && op.kind.fits && op.parent.all isWord32 && op.body.all isWord32

/-- The place that a value comes from is given by a word. -/
def Definition.fits : Definition → Bool
  | .argument position => isWord position
  | .op id => isWord32 id

/-- The numbers of a value are words. -/
def Value.fits (v : Value) : Bool :=
  isWord32 v.id && v.shape.all isWord && isWord32 v.space && v.definition.fits

/-- **All numbers of a function are words.** -/
def Func.fits (f : Func) : Bool :=
  f.arguments.all isWord32 && f.body.all isWord32 && f.ops.toList.all Op.fits
    && f.values.toList.all Value.fits

namespace Json

/-! ## 2. Encodings that are undone -/

/-- `Faithful encode decode a`: the encoding of `a` can be written, and decodes to `a`. -/
structure Faithful {α : Type} (encode : α → Json) (decode : Json → Option α) (a : α) : Prop where
  legible : (encode a).Legible
  decoded : decode (encode a) = some a

section

variable {α β : Type} {encode : α → Json} {decode : Json → Option α}

theorem faithful_word32 {n : Nat} (h : isWord32 n = true) : Faithful nat slot? n where
  legible := .int n
  decoded := by
    have hn : n ≤ wordMax32 := of_decide_eq_true h
    simp [nat, slot?, word32?, natUpTo?, hn]

theorem faithful_word {n : Nat} (h : isWord n = true) : Faithful nat word? n where
  legible := .int n
  decoded := by
    have hn : n ≤ wordMax := of_decide_eq_true h
    simp [nat, word?, natUpTo?, hn]

theorem faithful_int {n : Int} (h : isInt64 n = true) : Faithful .int int? n where
  legible := .int n
  decoded := by simp [int?, h]

theorem faithful_bool (b : Bool) : Faithful .bool bool? b := ⟨.bool b, rfl⟩

theorem faithful_string (s : String) : Faithful .str string? s := ⟨.str s, rfl⟩

theorem faithful_positive {n : Positive} (h : isWord n.val = true) :
    Faithful (fun n : Positive => nat n.val) positive? n where
  legible := .int n.val
  decoded := by simp [positive?, (faithful_word h).decoded, Positive.ofNat?, n.pos]

theorem mapM_eq_some {γ : Type} {k : γ → Option β} {g : γ → β} {l : List γ}
    (h : ∀ a ∈ l, k a = some (g a)) : l.mapM k = some (l.map g) := by
  induction l with
  | nil => rfl
  | cons a l ih =>
    obtain ⟨ha, hl⟩ := List.forall_mem_cons.mp h
    simp [List.mapM_cons, ha, ih hl]

/-- A list decodes item by item. -/
theorem faithful_list {l : List α} (h : ∀ a ∈ l, Faithful encode decode a) :
    Faithful (list encode) (list? decode) l where
  legible := .arr fun item hitem => by
    obtain ⟨a, ha, rfl⟩ := List.mem_map.mp hitem
    exact (h a ha).legible
  decoded := by
    have hitems := mapM_eq_some (k := fun a => decode (encode a)) (g := id)
      fun a ha => (h a ha).decoded
    rw [list, list?, List.mapM_map]
    rwa [List.map_id] at hitems

/-- An optional value is null or decodes, if no encoding is null itself. -/
theorem faithful_option {o : Option α} (hnull : ∀ a, encode a ≠ .null)
    (h : ∀ a ∈ o, Faithful encode decode a) : Faithful (option encode) (option? decode) o := by
  cases o with
  | none => exact ⟨.null, rfl⟩
  | some a =>
    refine ⟨(h a rfl).legible, ?_⟩
    rw [option, option?.eq_2 _ _ fun hj => hnull a hj, (h a rfl).decoded]
    rfl

/-- A pair decodes part by part. -/
theorem faithful_pair {encode' : β → Json} {decode' : Json → Option β} {p : α × β}
    (h : Faithful encode decode p.1) (h' : Faithful encode' decode' p.2) :
    Faithful (fun p => .arr [encode p.1, encode' p.2]) (pair? decode decode') p where
  legible := .arr (by simp [h.legible, h'.legible])
  decoded := by simp [pair?, h.decoded, h'.decoded]

end

/-! ## 3. Records and choices -/

theorem legible_record {fields : List (String × Json)} (h : ∀ e ∈ fields, e.2.Legible) :
    (record fields).Legible := by
  refine .obj (fun m hm => ?_) fun m hm => ?_
  · obtain ⟨e, -, rfl⟩ := List.mem_map.mp hm
    rfl
  · obtain ⟨e, he, rfl⟩ := List.mem_map.mp hm
    exact h e he

theorem legible_tagged {tag : String} {payload : Json} (h : payload.Legible) :
    (tagged tag payload).Legible := legible_record (by simpa using h)

@[simp] theorem choice?_tagged (tag : String) (payload : Json) :
    (tagged tag payload).choice? = some (tag, payload) := rfl

theorem membersNamed_cons_self (key : String) (value : Json) (ms : List (Option String × Json)) :
    membersNamed ((some key, value) :: ms) key = value :: membersNamed ms key :=
  List.filterMap_cons_some (if_pos rfl)

theorem membersNamed_cons_of_ne {key key' : String} (hne : key' ≠ key) (value : Json)
    (ms : List (Option String × Json)) :
    membersNamed ((some key', value) :: ms) key = membersNamed ms key :=
  List.filterMap_cons_none (if_neg fun heq => hne (Option.some.inj heq))

/-- No member has a name that is not among the keys. -/
theorem membersNamed_of_notMem {fields : List (String × Json)} {key : String}
    (hkey : key ∉ fields.map Prod.fst) :
    membersNamed (fields.map fun (k, v) => (some k, v)) key = [] := by
  induction fields with
  | nil => rfl
  | cons first fields ih =>
    rw [List.map_cons, List.mem_cons, not_or] at hkey
    rw [List.map_cons, membersNamed_cons_of_ne (Ne.symm hkey.1), ih hkey.2]

/-- Among distinct keys each names one member. -/
theorem membersNamed_record {fields : List (String × Json)} (hnd : (fields.map Prod.fst).Nodup)
    {e : String × Json} (he : e ∈ fields) :
    membersNamed (fields.map fun (k, v) => (some k, v)) e.1 = [e.2] := by
  induction fields with
  | nil => cases he
  | cons first fields ih =>
    rw [List.map_cons, List.nodup_cons] at hnd
    rcases List.mem_cons.mp he with rfl | he
    · rw [List.map_cons, membersNamed_cons_self, membersNamed_of_notMem hnd.1]
    · have hne : first.1 ≠ e.1 := fun heq => hnd.1 (List.mem_map.mpr ⟨e, he, heq.symm⟩)
      rw [List.map_cons, membersNamed_cons_of_ne hne, ih hnd.2 he]

/-- **The fields of a record are found under their keys.** -/
@[simp] theorem slots?_record {fields : List (String × Json)} {keys : List String}
    (hkeys : fields.map Prod.fst = keys) (hnd : keys.Nodup) :
    (record fields).slots? keys = some (fields.map fun e => .given e.2) := by
  subst hkeys
  have hnamed : ((fields.map fun (k, v) => (some k, v)).all fun m => m.1.isSome) = true := by
    simp
  rw [record, slots?, hnamed, if_pos rfl, List.mapM_map]
  refine mapM_eq_some fun e he => ?_
  simp only [Function.comp, memberSlot?, membersNamed_record hnd he]

end Json

open Json Command

/-! ## 4. The parts of a function -/

theorem Index.faithful {i : Index} (h : i.fits = true) : Faithful Index.toJson Index.ofJson? i := by
  cases i with
  | iv l =>
    have hl := faithful_word32 h
    exact ⟨legible_tagged hl.legible, by simp [toJson, ofJson?, hl.decoded]⟩
  | const c =>
    have hc := faithful_int h
    exact ⟨legible_tagged hc.legible, by simp [toJson, ofJson?, hc.decoded]⟩
  | unknown => exact ⟨.str _, rfl⟩
  | tiled tile point =>
    rw [fits, Bool.and_eq_true] at h
    have htile := faithful_word32 h.1
    have hpoint := faithful_word32 h.2
    refine ⟨legible_tagged (legible_record ?_), ?_⟩
    · simp [htile.legible, hpoint.legible]
    · simp [toJson, ofJson?, Slot.required, htile.decoded, hpoint.decoded]

theorem Access.faithful {a : Access} (h : a.fits = true) :
    Faithful Access.toJson Access.ofJson? a := by
  rw [fits, Bool.and_eq_true, List.all_eq_true] at h
  have hmemref := faithful_word32 h.1
  have hindices := faithful_list fun i hi => Index.faithful (h.2 i hi)
  refine ⟨legible_record ?_, ?_⟩
  · simp [hmemref.legible, hindices.legible]
  · simp [toJson, ofJson?, Slot.required, hmemref.decoded, hindices.decoded]

theorem Mark.faithful {m : Mark} (h : m.fits = true) : Faithful Mark.toJson Mark.ofJson? m := by
  cases m with
  | unrollJam n =>
    have hn : Faithful nat word? n := faithful_word h
    exact ⟨legible_tagged hn.legible, by simp [toJson, ofJson?, hn.decoded]⟩
  | vectorize n =>
    have hn : Faithful nat word? n := faithful_word h
    exact ⟨legible_tagged hn.legible, by simp [toJson, ofJson?, hn.decoded]⟩

theorem Mark.toJson_ne_null (m : Mark) : m.toJson ≠ .null := by
  cases m <;> nofun

theorem Loop.faithful {l : Loop} (h : l.fits = true) : Faithful Loop.toJson Loop.ofJson? l := by
  simp only [fits, Bool.and_eq_true, Option.all_eq_true] at h
  obtain ⟨⟨⟨⟨hlower, hupper⟩, hstep⟩, hpoint⟩, hmark⟩ := h
  have hname := faithful_string l.name
  have hlower := faithful_int hlower
  have hupper := faithful_option nofun fun n hn => faithful_int (hupper n hn)
  have hstep := faithful_int hstep
  have hparallel := faithful_bool l.parallel
  have hpoint := faithful_option nofun fun n hn => faithful_word32 (hpoint n hn)
  have hmark := faithful_option Mark.toJson_ne_null fun m hm => Mark.faithful (hmark m hm)
  refine ⟨legible_record ?_, ?_⟩
  · simp [hname.legible, hlower.legible, hupper.legible, hstep.legible, hparallel.legible,
      hpoint.legible, hmark.legible]
  · simp [toJson, ofJson?, Slot.required, Slot.optional, hname.decoded, hlower.decoded,
      hupper.decoded, hstep.decoded, hparallel.decoded, hpoint.decoded, hmark.decoded]

theorem Compute.faithful {c : Compute} (h : c.fits = true) :
    Faithful Compute.toJson Compute.ofJson? c := by
  simp only [fits, Bool.and_eq_true, List.all_eq_true] at h
  obtain ⟨⟨hreads, hwrites⟩, hlanes⟩ := h
  have hname := faithful_string c.name
  have hreads := faithful_list fun a ha => Access.faithful (hreads a ha)
  have hwrites := faithful_list fun a ha => Access.faithful (hwrites a ha)
  have hlanes := faithful_list fun lane hlane =>
    faithful_pair (faithful_word32 (hlanes lane hlane).1) (faithful_int (hlanes lane hlane).2)
  refine ⟨legible_record ?_, ?_⟩
  · simp [hname.legible, hreads.legible, hwrites.legible, hlanes.legible]
  · simp [toJson, ofJson?, Slot.required, hname.decoded, hreads.decoded, hwrites.decoded,
      hlanes.decoded]

theorem Schedule.faithful {s : Schedule} (h : s.fits = true) :
    Faithful Schedule.toJson Schedule.ofJson? s := by
  simp only [fits, Bool.and_eq_true, Option.all_eq_true] at h
  have hname := faithful_string s.name
  have hincrease := faithful_option nofun fun n hn => faithful_positive (h.1 n hn)
  have hdecrease := faithful_option nofun fun n hn => faithful_positive (h.2 n hn)
  refine ⟨legible_record ?_, ?_⟩
  · simp [hname.legible, hincrease.legible, hdecrease.legible]
  · simp [toJson, ofJson?, Slot.required, Slot.optional, hname.decoded, hincrease.decoded,
      hdecrease.decoded]

theorem Kind.faithful {k : Kind} (h : k.fits = true) : Faithful Kind.toJson Kind.ofJson? k := by
  cases k with
  | schedule s =>
    have hs := Schedule.faithful h
    exact ⟨legible_tagged hs.legible, by simp [toJson, ofJson?, hs.decoded]⟩
  | node name =>
    have hname := faithful_string name
    refine ⟨legible_tagged (legible_record ?_), ?_⟩
    · simp [hname.legible]
    · simp [toJson, ofJson?, Slot.required, hname.decoded]
  | loop l =>
    have hl := Loop.faithful h
    exact ⟨legible_tagged hl.legible, by simp [toJson, ofJson?, hl.decoded]⟩
  | buffer result init =>
    simp only [fits, Bool.and_eq_true, Option.all_eq_true] at h
    have hresult := faithful_word32 h.1
    have hinit := faithful_option (fun n hnull => by cases hnull) fun n hn =>
      faithful_int (h.2 n hn)
    refine ⟨legible_tagged (legible_record ?_), ?_⟩
    · simp [hresult.legible, hinit.legible]
    · simp [toJson, ofJson?, Slot.required, Slot.optional, hresult.decoded, hinit.decoded]
  | view source result =>
    rw [fits, Bool.and_eq_true] at h
    have hsource := faithful_word32 h.1
    have hresult := faithful_word32 h.2
    refine ⟨legible_tagged (legible_record ?_), ?_⟩
    · simp [hsource.legible, hresult.legible]
    · simp [toJson, ofJson?, Slot.required, hsource.decoded, hresult.decoded]
  | copy source target =>
    rw [fits, Bool.and_eq_true] at h
    have hsource := faithful_word32 h.1
    have htarget := faithful_word32 h.2
    refine ⟨legible_tagged (legible_record ?_), ?_⟩
    · simp [hsource.legible, htarget.legible]
    · simp [toJson, ofJson?, Slot.required, hsource.decoded, htarget.decoded]
  | compute c =>
    have hc := Compute.faithful h
    exact ⟨legible_tagged hc.legible, by simp [toJson, ofJson?, hc.decoded]⟩

theorem Op.faithful {op : Op} (h : op.fits = true) : Faithful Op.toJson Op.ofJson? op := by
  simp only [fits, Bool.and_eq_true, Option.all_eq_true, List.all_eq_true] at h
  obtain ⟨⟨⟨hid, hkind⟩, hparent⟩, hbody⟩ := h
  have hid := faithful_word32 hid
  have hkind := Kind.faithful hkind
  have hparent := faithful_option nofun fun n hn => faithful_word32 (hparent n hn)
  have hbody := faithful_list fun n hn => faithful_word32 (hbody n hn)
  have herased := faithful_bool op.erased
  refine ⟨legible_record ?_, ?_⟩
  · simp [hid.legible, hkind.legible, hparent.legible, hbody.legible, herased.legible]
  · simp [toJson, ofJson?, Slot.required, Slot.optional, Slot.defaulted, hid.decoded,
      hkind.decoded, hparent.decoded, hbody.decoded, herased.decoded]

theorem Definition.faithful {d : Definition} (h : d.fits = true) :
    Faithful Definition.toJson Definition.ofJson? d := by
  cases d with
  | argument position =>
    have hposition := faithful_word h
    exact ⟨legible_tagged hposition.legible, by simp [toJson, ofJson?, hposition.decoded]⟩
  | op id =>
    have hid := faithful_word32 h
    exact ⟨legible_tagged hid.legible, by simp [toJson, ofJson?, hid.decoded]⟩

theorem Value.faithful {v : Value} (h : v.fits = true) :
    Faithful Value.toJson Value.ofJson? v := by
  simp only [fits, Bool.and_eq_true, List.all_eq_true] at h
  obtain ⟨⟨⟨hid, hshape⟩, hspace⟩, hdefinition⟩ := h
  have hid := faithful_word32 hid
  have hname := faithful_string v.name
  have hshape := faithful_list fun n hn => faithful_word (hshape n hn)
  have hspace := faithful_word32 hspace
  have hdefinition := Definition.faithful hdefinition
  refine ⟨legible_record ?_, ?_⟩
  · simp [hid.legible, hname.legible, hshape.legible, hspace.legible, hdefinition.legible]
  · simp [toJson, ofJson?, Slot.required, hid.decoded, hname.decoded, hshape.decoded,
      show word32? _ = _ from hspace.decoded, hdefinition.decoded]

namespace Func

/-- **A function decodes from its encoding.** -/
theorem faithful {f : Func} (h : f.fits = true) : Faithful toJson ofJson? f := by
  simp only [fits, Bool.and_eq_true, List.all_eq_true] at h
  obtain ⟨⟨⟨harguments, hbody⟩, hops⟩, hvalues⟩ := h
  have hname := faithful_string f.name
  have harguments := faithful_list fun n hn => faithful_word32 (harguments n hn)
  have hbody := faithful_list fun n hn => faithful_word32 (hbody n hn)
  have hops := faithful_list fun op hop => Op.faithful (hops op hop)
  have hvalues := faithful_list fun v hv => Value.faithful (hvalues v hv)
  refine ⟨legible_record ?_, ?_⟩
  · simp [hname.legible, harguments.legible, hbody.legible, hops.legible, hvalues.legible]
  · simp [toJson, ofJson?, Slot.required, hname.decoded, harguments.decoded, hbody.decoded,
      hops.decoded, hvalues.decoded]

/-! ## 5. Loading -/

/-- A function is found in its text, whatever the style. -/
theorem ofText?_write {f : Func} (h : f.fits = true) {style : Style} (hs : style.Airy) :
    ofText? (f.toJson.write style 0) = some f := by
  rw [ofText?, parse?_write hs (faithful h).legible, Option.bind_some, (faithful h).decoded]

theorem load_eq_ok {f : Func} {text : String} (ht : ofText? text = some f)
    (hv : f.verify = .ok ()) : load text = .ok f := by
  simp only [load, ht, hv]

theorem load_eq_malformed {f : Func} {d : Defect} {text : String} (ht : ofText? text = some f)
    (hv : f.verify = .error d) : load text = .error (.malformed d) := by
  simp only [load, ht, hv]

/-- **Both texts of a function load as the function**, or as its defect if it is rejected: the
compact one, and the one that a run emits as JSON.  Names are arbitrary, and so are the tables. -/
theorem load_written (f : Func) (s : Summary) (h : f.fits = true) :
    ∃ pretty, emitted .json f s = .ok pretty ∧ ∀ text ∈ [f.toText, pretty],
      (f.verify = .ok () → load text = .ok f) ∧
      ∀ d, f.verify = .error d → load text = .error (.malformed d) := by
  refine ⟨f.toJson.pretty, rfl, fun text htext => ?_⟩
  have ht : ofText? text = some f := by
    simp only [List.mem_cons, List.not_mem_nil, or_false] at htext
    rcases htext with rfl | rfl
    · exact ofText?_write h Style.compact_airy
    · exact ofText?_write h Style.pretty_airy
  exact ⟨load_eq_ok ht, fun _ => load_eq_malformed ht⟩

/-- A function with every kind of operation, index and definition, the outer loop with the given
step: numbers at the ends of their ranges, names that need escapes, and an erased operation. -/
def everyForm (step : Int) : Func where
  name := "\"every\\form\"\n"
  arguments := [0]
  body := [0, 5, 6, 7]
  ops := #[
    ⟨0, .schedule ⟨"\t\u0001", some ⟨wordMax, by decide⟩, none⟩, none, [1], false⟩,
    ⟨1, .node "é∀𝕏", some 0, [2], false⟩,
    ⟨2, .loop ⟨"i", -2 ^ 63, some (2 ^ 63 - 1), step, true, none, some (.vectorize wordMax)⟩,
      some 1, [3], false⟩,
    ⟨3, .loop ⟨"", 0, none, 1, false, some 2, some (.unrollJam 0)⟩, some 2, [4], false⟩,
    ⟨4, .compute ⟨"c", [⟨0, [.iv 2, .const (-1), .unknown, .tiled 2 3]⟩], [⟨1, []⟩],
      [(3, -2 ^ 63)]⟩, some 3, [], false⟩,
    ⟨5, .buffer 1 (some (-2 ^ 63)), none, [], false⟩,
    ⟨6, .view 1 2, none, [], false⟩,
    ⟨7, .copy 0 2, none, [], false⟩,
    ⟨8, .copy 1 wordMax32, none, [], true⟩]
  values := #[
    { id := 0, name := "A", shape := [0, wordMax], space := wordMax32, definition := .argument 0 },
    { id := 1, name := "B", shape := [], space := 0, definition := .op 5 },
    { id := 2, name := "B", shape := [1], space := 1, definition := .op 6 }]

/-- With a loop that advances the function loads from both texts; with one that does not both
tell of that. -/
theorem load_written_everyForm :
    (∃ pretty, emitted .json (everyForm 1) {} = .ok pretty
      ∧ load (everyForm 1).toText = .ok (everyForm 1) ∧ load pretty = .ok (everyForm 1))
    ∧ ∃ pretty, emitted .json (everyForm 0) {} = .ok pretty
      ∧ load (everyForm 0).toText = .error (.malformed ⟨.badStep "i" 0, some 2⟩)
      ∧ load pretty = .error (.malformed ⟨.badStep "i" 0, some 2⟩) := by
  constructor
  · obtain ⟨pretty, hpretty, hload⟩ := load_written (everyForm 1) {} (by decide)
    have hverify : (everyForm 1).verify = .ok () := by rfl
    exact ⟨pretty, hpretty, (hload _ (by simp)).1 hverify, (hload _ (by simp)).1 hverify⟩
  · obtain ⟨pretty, hpretty, hload⟩ := load_written (everyForm 0) {} (by decide)
    have hverify : (everyForm 0).verify = .error ⟨.badStep "i" 0, some 2⟩ := by rfl
    exact ⟨pretty, hpretty, (hload _ (by simp)).2 _ hverify, (hload _ (by simp)).2 _ hverify⟩

end Func

end Dataflow
