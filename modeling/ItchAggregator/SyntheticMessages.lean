import ItchAggregator.MakeSynthetic
import ItchAggregator.OrderEvents
import ItchAggregator.StreamBuilder

/-! What the generator's messages say. Each one has the length of its type, and carries the
order event it was made for. -/

namespace ItchAggregator.MakeSynthetic

open PackedRecord

/-! Values that fit their field. -/

theorem be_eq {width v : Nat} {l : List UInt8} (fits : v < 256 ^ width)
    (cells : ((List.range width).reverse.map fun i => UInt8.ofNat (v / 256 ^ i)) = l) :
    be width v = some l := by
  rw [be, if_pos fits, cells]

theorem be_two {v : Nat} (fits : v < 2 ^ 16) : be 2 v = some (be16 (.ofNat v)) := by
  refine be_eq (by omega) ?_
  simp only [List.range, List.range.loop, be16]
  simp [← UInt8.toNat_inj, Nat.shiftRight_eq_div_pow]
  omega

theorem be_four {v : Nat} (fits : v < 2 ^ 32) : be 4 v = some (be32 (.ofNat v)) := by
  refine be_eq (by omega) ?_
  simp only [List.range, List.range.loop, be32]
  simp [← UInt8.toNat_inj, Nat.shiftRight_eq_div_pow]
  omega

theorem be_six {v : Nat} (fits : v < 2 ^ 48) : be 6 v = some (be48 (.ofNat v)) := by
  refine be_eq (by omega) ?_
  simp only [List.range, List.range.loop, be48]
  simp [← UInt8.toNat_inj, Nat.shiftRight_eq_div_pow]
  omega

theorem be_eight {v : Nat} (fits : v < 2 ^ 64) : be 8 v = some (be64 (.ofNat v)) := by
  refine be_eq (by omega) ?_
  simp only [List.range, List.range.loop, be64, be32]
  simp [← UInt8.toNat_inj, Nat.shiftRight_eq_div_pow]
  omega

@[simp] theorem length_stockField (sym : String) : (stockField sym).length = 8 := by
  simp only [stockField, List.length_take, List.length_append, List.length_replicate]
  omega

structure Carries (msg : List UInt8) (t : MsgType) (e : Option OrderEvent) : Prop where
  type : msg.headD 0 = t.code
  length : msg.length = msgLength t.code
  event : orderEvent? (ptrOf msg) = e

theorem Carries.fits {msg : List UInt8} {t : MsgType} {e : Option OrderEvent}
    (carries : Carries msg t e) : 0 < msg.length ∧ msg.length ≤ slotBytes := by
  rw [carries.length]
  cases t <;> decide

theorem Carries.short {msg : List UInt8} {t : MsgType} {e : Option OrderEvent}
    (carries : Carries msg t e) : msg.length < 2 ^ 16 :=
  carries.fits.2.trans_lt (by decide)

theorem Carries.first {msg : List UInt8} {t : MsgType} {e : Option OrderEvent}
    (carries : Carries msg t e) : ptrOf msg Ofs.type = t.code := by
  rw [← carries.type]
  cases msg <;> rfl

theorem Carries.relevant {msg : List UInt8} {t : MsgType} {e : OrderEvent}
    (carries : Carries msg t (some e)) : gpuRelevant t.code = true := by
  have event := carries.event
  rw [orderEvent?, carries.first, msgType?_code] at event
  cases t with
  | systemEvent | stockDir | trade | tradeCross => cases event
  | _ => rfl

def fields (t : MsgType) (locate ts : Nat) (rest : List (List UInt8)) : List (List UInt8) :=
  [t.code] :: be16 (.ofNat locate) :: be16 0 :: be48 (.ofNat ts) :: rest

section Header

variable (t : MsgType) {locate ts : Nat}

theorem header_eq {mtype : Char} (type : mtype.toUInt8 = t.code) (small : locate < 2 ^ 16)
    (day : ts < 2 ^ 48) : header mtype locate ts = some (fields t locate ts []).flatten := by
  rw [header, be_two small, be_two (by decide), be_six day, type]
  rfl

theorem type_fields {rest : List (List UInt8)} :
    ptrOf (fields t locate ts rest).flatten Ofs.type = t.code := rfl

end Header

theorem shown_field {ls : List (List UInt8)} {l : List UInt8} (n : Nat) {a : Nat}
    (here : ls[n]? = some l) (offset : (ls.take n).flatten.length = a) :
    Piece.Shown (ptrOf ls.flatten) ⟨a, l⟩ := offset ▸ shown_flatten here 0

section Messages

variable {locate ts : Nat} (small : locate < 2 ^ 16) (day : ts < 2 ^ 48)

include small day

theorem stockDirectory_carries (sym : String) :
    ∃ msg, stockDirectory locate ts sym = some msg ∧ Carries msg .stockDir none := by
  refine ⟨(fields .stockDir locate ts [stockField sym, List.replicate 20 0]).flatten, ?_, rfl,
    ?_, ?_⟩
  · rw [stockDirectory, header_eq .stockDir rfl small day]
    simp [fields]
  · rw [msgLength, msgType?_code]
    simp [fields]
  · rw [orderEvent?, type_fields, msgType?_code]

theorem addOrder_carries (mpid : Bool) {ref shares price : Nat} (side : Char) (sym : String)
    (named : ref < 2 ^ 64) (amount : shares < 2 ^ 32) (cost : price < 2 ^ 32) :
    ∃ msg, addOrder mpid locate ts ref side shares sym price = some msg ∧
      Carries msg (if mpid then .addOrderMpid else .addOrder)
        (some (.add (.ofNat ref) ⟨.ofNat locate, side.toUInt8, .ofNat shares, .ofNat price⟩)) := by
  let t : MsgType := if mpid then .addOrderMpid else .addOrder
  let ls := fields t locate ts [be64 (.ofNat ref), [side.toUInt8], be32 (.ofNat shares),
    stockField sym, be32 (.ofNat price), if mpid then encode "MPID" else []]
  have type : (if mpid then 'F' else 'A' : Char).toUInt8 = t.code := by cases mpid <;> rfl
  refine ⟨ls.flatten, ?_, rfl, ?_, ?_⟩
  · rw [addOrder, header_eq t type small day, be_eight named, be_four amount, be_four cost]
    simp [ls, fields]
  · cases mpid <;> simp [ls, t, fields, encode] <;> rfl
  · have event_ref : loadBe64 (shift (ptrOf ls.flatten) Ofs.addRef) = .ofNat ref :=
      loadBe64_shown (shown_field 4 rfl rfl)
    have event_locate : loadBe16 (shift (ptrOf ls.flatten) Ofs.locate) = .ofNat locate :=
      loadBe16_shown (shown_field 1 rfl rfl)
    have event_side : ptrOf ls.flatten Ofs.addSide = side.toUInt8 :=
      byte_shown (shown_field 5 rfl rfl)
    have event_shares : loadBe32 (shift (ptrOf ls.flatten) Ofs.addShares) = .ofNat shares :=
      loadBe32_shown (shown_field 6 rfl rfl)
    have event_price : loadBe32 (shift (ptrOf ls.flatten) Ofs.addPrice) = .ofNat price :=
      loadBe32_shown (shown_field 8 rfl (by simp [ls, fields]))
    rw [orderEvent?, type_fields, msgType?_code, event_ref, event_locate, event_side,
      event_shares, event_price]
    cases mpid <;> rfl

theorem orderCancel_carries {ref canceled : Nat} (named : ref < 2 ^ 64) (amount : canceled < 2 ^ 32) :
    ∃ msg, orderCancel locate ts ref canceled = some msg ∧
      Carries msg .orderCancel (some (.cancel (.ofNat ref) (.ofNat canceled))) := by
  let ls := fields .orderCancel locate ts [be64 (.ofNat ref), be32 (.ofNat canceled)]
  refine ⟨ls.flatten, ?_, rfl, rfl, ?_⟩
  · rw [orderCancel, header_eq .orderCancel rfl small day, be_eight named, be_four amount]
    simp [ls, fields]
  · have event_ref : loadBe64 (shift (ptrOf ls.flatten) Ofs.cancelRef) = .ofNat ref :=
      loadBe64_shown (shown_field 4 rfl rfl)
    have event_canceled : loadBe32 (shift (ptrOf ls.flatten) Ofs.cancelCanceled) =
        .ofNat canceled := loadBe32_shown (shown_field 5 rfl rfl)
    rw [orderEvent?, type_fields, msgType?_code, event_ref, event_canceled]

theorem orderDelete_carries {ref : Nat} (named : ref < 2 ^ 64) :
    ∃ msg, orderDelete locate ts ref = some msg ∧
      Carries msg .orderDelete (some (.delete (.ofNat ref))) := by
  let ls := fields .orderDelete locate ts [be64 (.ofNat ref)]
  refine ⟨ls.flatten, ?_, rfl, rfl, ?_⟩
  · rw [orderDelete, header_eq .orderDelete rfl small day, be_eight named]
    simp [ls, fields]
  · have event_ref : loadBe64 (shift (ptrOf ls.flatten) Ofs.delRef) = .ofNat ref :=
      loadBe64_shown (shown_field 4 rfl rfl)
    rw [orderEvent?, type_fields, msgType?_code, event_ref]

theorem orderReplace_carries {ref nextRef shares price : Nat} (named : ref < 2 ^ 64)
    (renamed : nextRef < 2 ^ 64) (amount : shares < 2 ^ 32) (cost : price < 2 ^ 32) :
    ∃ msg, orderReplace locate ts ref nextRef shares price = some msg ∧
      Carries msg .orderReplace
        (some (.replace (.ofNat ref) (.ofNat nextRef) (.ofNat shares) (.ofNat price))) := by
  let ls := fields .orderReplace locate ts [be64 (.ofNat ref), be64 (.ofNat nextRef),
    be32 (.ofNat shares), be32 (.ofNat price)]
  refine ⟨ls.flatten, ?_, rfl, rfl, ?_⟩
  · rw [orderReplace, header_eq .orderReplace rfl small day, be_eight named, be_eight renamed,
      be_four amount, be_four cost]
    simp [ls, fields]
  · have event_orig : loadBe64 (shift (ptrOf ls.flatten) Ofs.replaceOrigRef) = .ofNat ref :=
      loadBe64_shown (shown_field 4 rfl rfl)
    have event_new : loadBe64 (shift (ptrOf ls.flatten) Ofs.replaceNewRef) = .ofNat nextRef :=
      loadBe64_shown (shown_field 5 rfl rfl)
    have event_shares : loadBe32 (shift (ptrOf ls.flatten) Ofs.replaceShares) = .ofNat shares :=
      loadBe32_shown (shown_field 6 rfl rfl)
    have event_price : loadBe32 (shift (ptrOf ls.flatten) Ofs.replacePrice) = .ofNat price :=
      loadBe32_shown (shown_field 7 rfl rfl)
    rw [orderEvent?, type_fields, msgType?_code, event_orig, event_new, event_shares, event_price]

theorem trade_carries (side : Char) {shares price matchNo : Nat} (sym : String)
    (amount : shares < 2 ^ 32) (cost : price < 2 ^ 32) (matched : matchNo < 2 ^ 64) :
    ∃ msg, trade locate ts side shares sym price matchNo = some msg ∧ Carries msg .trade none := by
  refine ⟨(fields .trade locate ts [be64 0, [side.toUInt8], be32 (.ofNat shares), stockField sym,
    be32 (.ofNat price), be64 (.ofNat matchNo)]).flatten, ?_, rfl, ?_, ?_⟩
  · rw [trade, header_eq .trade rfl small day, be_eight (by decide), be_four amount, be_four cost,
      be_eight matched]
    simp [fields]
  · rw [msgLength, msgType?_code]
    simp [fields]
  · rw [orderEvent?, type_fields, msgType?_code]

theorem crossTrade_carries {shares price matchNo : Nat} (sym : String) (amount : shares < 2 ^ 64)
    (cost : price < 2 ^ 32) (matched : matchNo < 2 ^ 64) :
    ∃ msg, crossTrade locate ts shares sym price matchNo = some msg ∧
      Carries msg .tradeCross none := by
  refine ⟨(fields .tradeCross locate ts [be64 (.ofNat shares), stockField sym,
    be32 (.ofNat price), be64 (.ofNat matchNo), ['O'.toUInt8]]).flatten, ?_, rfl, ?_, ?_⟩
  · rw [crossTrade, header_eq .tradeCross rfl small day, be_eight amount, be_four cost,
      be_eight matched]
    simp [fields]
  · rw [msgLength, msgType?_code]
    simp [fields]
  · rw [orderEvent?, type_fields, msgType?_code]

end Messages

theorem systemEvent_carries (event : Char) {ts : Nat} (day : ts < 2 ^ 48) :
    ∃ msg, systemEvent ts event = some msg ∧ Carries msg .systemEvent none := by
  refine ⟨(fields .systemEvent 0 ts [[event.toUInt8]]).flatten, ?_, rfl, rfl, ?_⟩
  · rw [systemEvent, header_eq .systemEvent rfl (by decide) day]
    simp [fields]
  · rw [orderEvent?, type_fields, msgType?_code]

end ItchAggregator.MakeSynthetic
