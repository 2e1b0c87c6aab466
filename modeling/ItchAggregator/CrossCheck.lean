import ItchAggregator.RunOutput
import ItchAggregator.ValidateCounts

/-! The Python pass beside the pipeline. The pass sums over the whole file in unbounded
integers; the final snapshot has the sums of the last market session that ships anything,
in words of 64 bits. -/

namespace ItchAggregator

open Batching (Batch since)
open BatchAssembler Rounding

theorem ExactLength.length_eq {f : List UInt8} {t : UInt8} (exact_ : ExactLength f)
    (type : f.headD 0 = t) (known : msgLength t ≠ 0) : f.length = msgLength t := by
  subst type
  exact exact_ known

namespace ValidateCounts

/-! The fields, read both ways. -/

theorem slice_bytes {msg : List UInt8} {i n : Nat} (inside : i + n ≤ msg.length) :
    slice msg i (i + n) = bytes (shift (ptrOf msg) i) n := by
  have whole : (msg.take (i + n)) = bytes (ptrOf msg) (i + n) := by
    conv_lhs => rw [← bytes_ptrOf msg]
    rw [bytes, ← List.map_take, List.take_range, min_eq_left inside]
    rfl
  rw [slice, whole, bytes_add]
  exact List.drop_left' (length_bytes _ _)

theorem unpack_be16 {msg : List UInt8} {i : Nat} (inside : i + 2 ≤ msg.length) :
    unpack 2 (slice msg i (i + 2)) = .ok (loadBe16 (shift (ptrOf msg) i)).toNat := by
  rw [slice_bytes inside, unpack, if_pos (length_bytes _ _), loadBe16_toNat]
  simp [bytes, List.range_succ]

theorem unpack_be32 {msg : List UInt8} {i : Nat} (inside : i + 4 ≤ msg.length) :
    unpack 4 (slice msg i (i + 4)) = .ok (loadBe32 (shift (ptrOf msg) i)).toNat := by
  rw [slice_bytes inside, unpack, if_pos (length_bytes _ _), loadBe32_toNat]
  simp [bytes, List.range_succ]
  omega

theorem unpack_be64 {msg : List UInt8} {i : Nat} (inside : i + 8 ≤ msg.length) :
    unpack 8 (slice msg i (i + 8)) = .ok (loadBe64 (shift (ptrOf msg) i)).toNat := by
  rw [slice_bytes inside, unpack, if_pos (length_bytes _ _), loadBe64_toNat, loadBe32_toNat,
    loadBe32_toNat]
  simp [bytes, List.range_succ]
  omega

/-- What a frame adds to a sum of the symbol at `locate`. -/
def flowAt (a : Array64) (locate : Nat) (f : List UInt8) : Nat :=
  if (loadBe16 (shift (ptrOf f) Ofs.locate)).toNat = locate then Shipped.flow a ⟨f, 0, 0⟩ else 0

def ticker (f : List UInt8) : List UInt8 :=
  (((slice f 11 19).dropWhile isSpace).reverse.dropWhile isSpace).reverse

def listName (names : Nat → Option (List UInt8)) (f : List UInt8) : Nat → Option (List UInt8) :=
  if f.headD 0 = 'R'.toUInt8 then
    Function.update names (loadBe16 (shift (ptrOf f) Ofs.locate)).toNat (some (ticker f))
  else names

structure Adds (v v' : ValidateCounts) (f : List UInt8) : Prop where
  total : v'.total = v.total + 1
  counts : ∀ t, v'.counts t = v.counts t + if f.head? == some t then 1 else 0
  shares : ∀ l, v'.sharesByLocate l = v.sharesByLocate l + flowAt .vwapDen l f
  num : ∀ l, v'.numByLocate l = v.numByLocate l + flowAt .vwapNum l f
  names : v'.names = listName v.names f

variable {v : ValidateCounts} {f : List UInt8}

theorem kind_eq {t : MsgType} (type : f.headD 0 = t.code) :
    (⟨f, 0, 0⟩ : Shipped).kind = some t := msgType?_eq_some.mpr type

theorem flowAt_trade {a : Array64} (sums : a = .vwapNum ∨ a = .vwapDen)
    (type : f.headD 0 = MsgType.trade.code) (l : Nat) :
    flowAt a l f =
      if (loadBe16 (shift (ptrOf f) Ofs.locate)).toNat = l then
        let shares := (loadBe32 (shift (ptrOf f) Ofs.tradeShares)).toNat
        if a = .vwapDen then shares else
          shares * (loadBe32 (shift (ptrOf f) Ofs.tradePrice)).toNat
      else 0 := by
  have kind := kind_eq type
  rcases sums with rfl | rfl <;>
    simp only [flowAt, Shipped.flow, Shipped.qty, Shipped.price, kind, Shipped.data,
      reduceCtorEq, if_true, if_false, Nat.mul_comm]

theorem flowAt_cross {a : Array64} (sums : a = .vwapNum ∨ a = .vwapDen)
    (type : f.headD 0 = MsgType.tradeCross.code) (l : Nat) :
    flowAt a l f =
      if (loadBe16 (shift (ptrOf f) Ofs.locate)).toNat = l then
        let shares := (loadBe64 (shift (ptrOf f) Ofs.crossShares64)).toNat
        if a = .vwapDen then shares else
          shares * (loadBe32 (shift (ptrOf f) Ofs.crossPrice)).toNat
      else 0 := by
  have kind := kind_eq type
  rcases sums with rfl | rfl <;>
    simp only [flowAt, Shipped.flow, Shipped.qty, Shipped.price, kind, Shipped.data,
      reduceCtorEq, if_true, if_false, Nat.mul_comm]

theorem flowAt_other {a : Array64} (sums : a = .vwapNum ∨ a = .vwapDen)
    (trade : f.headD 0 ≠ MsgType.trade.code) (cross : f.headD 0 ≠ MsgType.tradeCross.code)
    (l : Nat) : flowAt a l f = 0 := by
  have zero : Shipped.flow a ⟨f, 0, 0⟩ = 0 := by
    unfold Shipped.flow
    cases kind : (⟨f, 0, 0⟩ : Shipped).kind with
    | none => cases a <;> rfl
    | some t =>
      have type : f.headD 0 = t.code := msgType?_eq_some.mp kind
      cases t with
      | trade => exact absurd type trade
      | tradeCross => exact absurd type cross
      | _ => rcases sums with rfl | rfl <;> rfl
  rw [flowAt, zero, ite_self]

theorem addTrade_adds {i n j l x y : Nat} (locate : unpack 2 (slice f 1 3) = .ok l)
    (shares : unpack n (slice f i (i + n)) = .ok x) (price : unpack 4 (slice f j (j + 4)) = .ok y)
    (den : ∀ k, flowAt .vwapDen k f = if l = k then x else 0)
    (num : ∀ k, flowAt .vwapNum k f = if l = k then x * y else 0) :
    ∃ v', addTrade v f i n j = .ok v' ∧ v'.total = v.total ∧ v'.counts = v.counts ∧
      v'.names = v.names ∧
      (∀ k, v'.sharesByLocate k = v.sharesByLocate k + flowAt .vwapDen k f) ∧
      ∀ k, v'.numByLocate k = v.numByLocate k + flowAt .vwapNum k f := by
  have update : ∀ (table : Nat → Nat) (z k : Nat),
      Function.update table l (table l + z) k = table k + if l = k then z else 0 := by
    intro table z k
    rw [Function.update_apply]
    by_cases same : k = l
    · rw [if_pos same, if_pos same.symm, same]
    · rw [if_neg same, if_neg (Ne.symm same), Nat.add_zero]
  rw [addTrade, locate, shares, price]
  refine ⟨_, rfl, rfl, rfl, rfl, fun k => ?_, fun k => ?_⟩
  · rw [den]
    exact update v.sharesByLocate x k
  · rw [num]
    exact update v.numByLocate (x * y) k

theorem update_counts (some_ : f ≠ []) (counts : UInt8 → Nat) (t : UInt8) :
    Function.update counts (f.headD 0) (counts (f.headD 0) + 1) t =
      counts t + if f.head? == some t then 1 else 0 := by
  have head : f.head? = some (f.headD 0) := by
    cases f with
    | nil => exact absurd rfl some_
    | cons b f => rfl
  rw [Function.update_apply, head]
  generalize f.headD 0 = b
  by_cases same : t = b
  · simp [same]
  · simp [same, Ne.symm same]

theorem message_adds (exact_ : ExactLength f) (some_ : f ≠ [])
    (ascii : f.headD 0 = 'R'.toUInt8 → ∀ b ∈ slice f 11 19, b < 128) (v : ValidateCounts) :
    ∃ v', message v f = .ok v' ∧ Adds v v' f := by
  have counted := update_counts some_ v.counts
  unfold message
  dsimp only
  split
  · rename_i isR
    have length : f.length = 39 := exact_.length_eq isR (by decide)
    have trade : f.headD 0 ≠ MsgType.trade.code := by rw [isR]; decide
    have cross : f.headD 0 ≠ MsgType.tradeCross.code := by rw [isR]; decide
    have locate := unpack_be16 (show 1 + 2 ≤ f.length by omega)
    have ticker : (slice f 11 19).all (· < 128) = true := by simpa using ascii isR
    refine ⟨_, by rw [addName, locate, decodeStrip, if_pos ticker]; rfl, rfl, counted, ?_, ?_, ?_⟩
    · intro l
      rw [flowAt_other (Or.inr rfl) trade cross]
      rfl
    · intro l
      rw [flowAt_other (Or.inl rfl) trade cross]
      rfl
    · rw [listName, if_pos isR]
      rfl
  · rename_i notR
    have stays : ∀ names, names = listName names f := fun names => (if_neg notR).symm
    split
    · rename_i isP
      have length : f.length = 44 := exact_.length_eq isP (by decide)
      obtain ⟨v', result, total, counts, names, shares, num⟩ := addTrade_adds (v := _)
        (unpack_be16 (show 1 + 2 ≤ f.length by omega))
        (unpack_be32 (show 20 + 4 ≤ f.length by omega))
        (unpack_be32 (show 32 + 4 ≤ f.length by omega))
        (flowAt_trade (Or.inr rfl) isP) (flowAt_trade (Or.inl rfl) isP)
      exact ⟨v', result, total, fun t => counts ▸ counted t, shares, num, names.trans (stays _)⟩
    · split
      · rename_i isQ
        have length : f.length = 40 := exact_.length_eq isQ (by decide)
        obtain ⟨v', result, total, counts, names, shares, num⟩ := addTrade_adds (v := _)
          (unpack_be16 (show 1 + 2 ≤ f.length by omega))
          (unpack_be64 (show 11 + 8 ≤ f.length by omega))
          (unpack_be32 (show 27 + 4 ≤ f.length by omega))
          (flowAt_cross (Or.inr rfl) isQ) (flowAt_cross (Or.inl rfl) isQ)
        exact ⟨v', result, total, fun t => counts ▸ counted t, shares, num, names.trans (stays _)⟩
      · rename_i notP notQ
        refine ⟨_, rfl, rfl, counted, fun l => ?_, fun l => ?_, stays _⟩
        · rw [flowAt_other (Or.inr rfl) notP notQ]
          rfl
        · rw [flowAt_other (Or.inl rfl) notP notQ]
          rfl

structure Regular (f : List UInt8) : Prop where
  exact_ : ExactLength f
  some_ : f ≠ []
  ascii : f.headD 0 = 'R'.toUInt8 → ∀ b ∈ slice f 11 19, b < 128

structure Sums (v w : ValidateCounts) (fs : List (List UInt8)) : Prop where
  total : w.total = v.total + fs.length
  counts : ∀ t, w.counts t = v.counts t + fs.countP fun f => f.head? == some t
  shares : ∀ l, w.sharesByLocate l = v.sharesByLocate l + (fs.map (flowAt .vwapDen l)).sum
  num : ∀ l, w.numByLocate l = v.numByLocate l + (fs.map (flowAt .vwapNum l)).sum
  names : w.names = fs.foldl listName v.names

theorem foldlM_sums {fs : List (List UInt8)} (regular : ∀ f ∈ fs, Regular f) (v : ValidateCounts) :
    ∃ w, fs.foldlM message v = .ok w ∧ Sums v w fs := by
  induction fs generalizing v with
  | nil => exact ⟨v, rfl, rfl, fun _ => rfl, fun _ => rfl, fun _ => rfl, rfl⟩
  | cons f fs ih =>
    obtain ⟨first, later⟩ := List.forall_mem_cons.mp regular
    obtain ⟨v', result, adds⟩ := message_adds first.exact_ first.some_ first.ascii v
    obtain ⟨w, ended, sums⟩ := ih later v'
    refine ⟨w, ?_, ?_, fun t => ?_, fun l => ?_, fun l => ?_, ?_⟩
    · rw [List.foldlM_cons, result]
      exact ended
    · rw [sums.total, adds.total, List.length_cons]
      omega
    · rw [sums.counts, adds.counts, List.countP_cons]
      omega
    · rw [sums.shares, adds.shares, List.map_cons, List.sum_cons, Nat.add_assoc]
    · rw [sums.num, adds.num, List.map_cons, List.sum_cons, Nat.add_assoc]
    · rw [sums.names, adds.names]
      rfl

theorem loop_foldlM {bs : List UInt8} {turns : Nat} (whole : ¬CutOff (leftover bs))
    (enough : bs.length ≤ turns) (v : ValidateCounts) :
    loop 0 turns bs v = (frames bs).foldlM message v := by
  induction bs using frames_induction generalizing turns v with
  | stop bs stop =>
    rw [leftover_stop stop] at whole
    rw [loop_stop stop enough, if_neg whole, stop]
    rfl
  | frame hi lo rest positive fits ih =>
    obtain ⟨turns, rfl⟩ : ∃ t, turns = t + 1 := ⟨turns - 1, by simp at enough; omega⟩
    rw [leftover_frame positive fits] at whole
    rw [loop_frame positive fits, frames_frame positive fits, List.foldlM_cons]
    cases message v (rest.take (hi.toNat * 256 + lo.toNat)) with
    | error e => rfl
    | ok v' =>
      have shorter : (rest.drop (hi.toNat * 256 + lo.toNat)).length ≤ turns := by
        simp only [List.length_cons, List.length_drop] at enough ⊢
        omega
      exact ih whole shorter v'

theorem main_foldlM {bs : List UInt8} (whole : ¬CutOff (leftover bs)) :
    main 0 bs = (frames bs).foldlM message {} := loop_foldlM whole (Nat.le_refl _) {}

end ValidateCounts

/-! The names, listed both ways. -/

theorem takeWhile_bytes {m : Ptr} {n k : Nat} (inside : n < k) (zero : m n = 0)
    (some_ : ∀ i < n, m i ≠ 0) : (bytes m k).takeWhile (· != 0) = bytes m n := by
  obtain ⟨j, rfl⟩ : ∃ j, k = n + (j + 1) := ⟨k - n - 1, by omega⟩
  have stop : bytes (shift m n) (j + 1) = 0 :: (List.range j).map (shift m n ∘ Nat.succ) := by
    rw [bytes, List.range_succ_eq_map, List.map_cons, List.map_map, shift_apply, Nat.add_zero, zero]
  have plain : ∀ c ∈ bytes m n, (c != 0) = true := by
    intro c mem
    obtain ⟨i, hi, rfl⟩ := List.mem_map.mp mem
    simpa using some_ i (List.mem_range.mp hi)
  rw [bytes_add, List.takeWhile_append_of_pos plain, stop, List.takeWhile_cons_of_neg (by decide),
    List.append_nil]

/-- The characters of a ticker in front of the first blank or NUL. -/
def SymbolTable.shortTicker (rMsg : Ptr) : List UInt8 :=
  (bytes (shift rMsg Ofs.dirStock) 8).takeWhile fun c => c != ' '.toUInt8 && c != 0

theorem store_front {dst : Ptr} {n : Nat} (some_ : ∀ i < n, dst i ≠ 0) (c : UInt8) :
    bytes (store dst n c) n = bytes dst n ∧ store dst n c n = c ∧ ∀ i < n, store dst n c i ≠ 0 := by
  refine ⟨bytes_congr fun i hi => ?_, ?_, fun i hi => ?_⟩
  · rw [store_apply, if_neg hi.ne]
  · rw [store_apply, if_pos rfl]
  · rw [store_apply, if_neg hi.ne]
    exact some_ i hi

theorem SymbolTable.copyTicker_name (rMsg : Ptr) {left n : Nat} (eight : n + left = 8) {dst : Ptr}
    (some_ : ∀ i < n, dst i ≠ 0) :
    (bytes (copyTicker rMsg left n dst) 9).takeWhile (· != 0) =
      bytes dst n ++ (bytes (shift rMsg (Ofs.dirStock + n)) left).takeWhile
        fun c => c != ' '.toUInt8 && c != 0 := by
  have stops : (bytes (store dst n 0) 9).takeWhile (· != 0) = bytes dst n := by
    obtain ⟨below, zero, front⟩ := store_front some_ 0
    rw [takeWhile_bytes (by omega) zero front, below]
  induction left generalizing n dst with
  | zero =>
    rw [copyTicker, stops]
    exact (List.append_nil _).symm
  | succ left ih =>
    have first : bytes (shift rMsg (Ofs.dirStock + n)) (left + 1) =
        rMsg (Ofs.dirStock + n) :: bytes (shift rMsg (Ofs.dirStock + (n + 1))) left := by
      rw [Nat.add_comm left 1, bytes_add, shift_shift]
      rfl
    rw [copyTicker, first]
    by_cases ends : rMsg (Ofs.dirStock + n) = ' '.toUInt8 ∨ rMsg (Ofs.dirStock + n) = 0
    · rw [if_pos ends, stops, List.takeWhile_cons_of_neg, List.append_nil]
      rcases ends with blank | nul
      · simp [blank]
      · simp [nul]
    · obtain ⟨blank, nul⟩ := not_or.mp ends
      obtain ⟨below, here, front⟩ := store_front some_ (rMsg (Ofs.dirStock + n))
      have longer : ∀ i < n + 1, store dst n (rMsg (Ofs.dirStock + n)) i ≠ 0 := by
        intro i hi
        rcases Nat.lt_succ_iff_lt_or_eq.mp hi with less | rfl
        · exact front i less
        · rw [here]
          exact nul
      have prefix_ : bytes (store dst n (rMsg (Ofs.dirStock + n))) (n + 1) =
          bytes dst n ++ [rMsg (Ofs.dirStock + n)] := by
        rw [bytes_add, below]
        exact congrArg (bytes dst n ++ [·]) here
      have later := ih (by omega) longer (by
        obtain ⟨below', zero, front'⟩ := store_front longer 0
        rw [takeWhile_bytes (by omega) zero front', below'])
      rw [if_neg ends, later, prefix_, List.takeWhile_cons_of_pos (by simp [blank, nul]),
        List.append_assoc]
      rfl

theorem SymbolTable.update_name (t : SymbolTable) (rMsg : Ptr) {l : Nat} (inside : l < maxSymbols) :
    (t.update rMsg).name l =
      if (loadBe16 (shift rMsg Ofs.locate)).toNat = l then shortTicker rMsg else t.name l := by
  rw [name, if_pos inside, name, if_pos inside, update]
  split
  · rename_i outside
    rw [if_neg (by omega)]
  · dsimp only
    by_cases same : (loadBe16 (shift rMsg Ofs.locate)).toNat = l
    · rw [if_pos same, same, Function.update_self,
        copyTicker_name rMsg (Nat.zero_add 8) fun i hi => absurd hi (Nat.not_lt_zero i)]
      rfl
    · rw [if_neg same, Function.update_of_ne (Ne.symm same)]

namespace ValidateCounts

/-- A ticker in ASCII without blanks or NULs in it, padded with blanks to the right. -/
def Padded (f : List UInt8) : Prop :=
  ∃ (t : List UInt8) (n : Nat), slice f 11 19 = t ++ List.replicate n ' '.toUInt8 ∧
    ∀ c ∈ t, c < 128 ∧ isSpace c = false ∧ c ≠ 0

theorem Padded.ascii {f : List UInt8} (padded : Padded f) : ∀ b ∈ slice f 11 19, b < 128 := by
  obtain ⟨t, n, field, plain⟩ := padded
  intro b mem
  rw [field] at mem
  rcases List.mem_append.mp mem with char | blank
  · exact (plain b char).1
  · rw [(List.mem_replicate.mp blank).2]
    decide

theorem dropWhile_plain {t : List UInt8} (plain : ∀ c ∈ t, isSpace c = false) :
    t.dropWhile isSpace = t := by
  cases t with
  | nil => rfl
  | cons c t => exact List.dropWhile_cons_of_neg (by simp [plain c List.mem_cons_self])

theorem Padded.ticker {f : List UInt8} (padded : Padded f) (long : 19 ≤ f.length) :
    ticker f = SymbolTable.shortTicker (ptrOf f) := by
  obtain ⟨t, n, field, plain⟩ := padded
  have blanks : ∀ c ∈ List.replicate n ' '.toUInt8, isSpace c = true := by
    intro c mem
    rw [(List.mem_replicate.mp mem).2]
    rfl
  have noSpace : ∀ c ∈ t, isSpace c = false := fun c mem => (plain c mem).2.1
  have short : SymbolTable.shortTicker (ptrOf f) = t := by
    have read : bytes (shift (ptrOf f) Ofs.dirStock) 8 = t ++ List.replicate n ' '.toUInt8 := by
      rw [← field]
      exact (slice_bytes (show 11 + 8 ≤ f.length from long)).symm
    have chars : ∀ c ∈ t, (c != ' '.toUInt8 && c != 0) = true := by
      intro c mem
      obtain ⟨_, noBlank, nul⟩ := plain c mem
      have blank : c ≠ ' '.toUInt8 := by
        rintro rfl
        cases noBlank
      simp [blank, nul]
    rw [SymbolTable.shortTicker, read, List.takeWhile_append_of_pos chars]
    cases n <;> simp [List.replicate_succ]
  have front : (t ++ List.replicate n ' '.toUInt8).dropWhile isSpace =
      if t = [] then [] else t ++ List.replicate n ' '.toUInt8 := by
    cases t with
    | nil => exact List.dropWhile_eq_nil_iff.mpr blanks
    | cons c t =>
      exact List.dropWhile_cons_of_neg (by simp [noSpace c List.mem_cons_self])
  rw [short, ValidateCounts.ticker, field, front]
  split
  · rename_i none
    rw [none]
    rfl
  · have back : ∀ c ∈ (List.replicate n ' '.toUInt8).reverse, isSpace c = true := fun c mem =>
      blanks c (List.mem_reverse.mp mem)
    rw [List.reverse_append, List.dropWhile_append_of_pos back,
      dropWhile_plain fun c mem => noSpace c (List.mem_reverse.mp mem), List.reverse_reverse]

theorem names_listed {fs : List (List UInt8)} (regular : ∀ f ∈ fs, Regular f)
    (padded : ∀ f ∈ fs, f.headD 0 = 'R'.toUInt8 → Padded f) {l : Nat} (inside : l < maxSymbols) :
    ((fs.foldl listName fun _ => none) l).getD [] =
      (SymbolTable.empty.listed (fs.map Msg.ofFrame)).name l := by
  have step : ∀ (names : Nat → Option (List UInt8)) (t : SymbolTable),
      (names l).getD [] = t.name l →
      ((fs.foldl listName names) l).getD [] = (t.listed (fs.map Msg.ofFrame)).name l := by
    induction fs with
    | nil => exact fun _ _ same => same
    | cons f fs ih =>
      intro names t same
      obtain ⟨first, later⟩ := List.forall_mem_cons.mp regular
      obtain ⟨firstPadded, laterPadded⟩ := List.forall_mem_cons.mp padded
      rw [List.foldl_cons, List.map_cons, SymbolTable.listed, List.foldl_cons]
      refine ih later laterPadded _ _ ?_
      have type : (Msg.ofFrame f).data Ofs.type = f.headD 0 := by cases f <;> rfl
      rw [type, listName]
      by_cases isR : f.headD 0 = 'R'.toUInt8
      · have length : f.length = 39 := first.exact_.length_eq isR (by decide)
        have code : f.headD 0 = MsgType.stockDir.code := isR
        have locate : (loadBe16 (shift (Msg.ofFrame f).data Ofs.locate)).toNat =
            (loadBe16 (shift (ptrOf f) Ofs.locate)).toNat := rfl
        rw [if_pos isR, if_pos code, SymbolTable.update_name _ _ inside, locate,
          Function.update_apply]
        by_cases here : l = (loadBe16 (shift (ptrOf f) Ofs.locate)).toNat
        · rw [if_pos here, if_pos here.symm]
          exact (firstPadded isR).ticker (by omega)
        · rw [if_neg here, if_neg (Ne.symm here)]
          exact same
      · have code : f.headD 0 ≠ MsgType.stockDir.code := isR
        rw [if_neg isR, if_neg code]
        exact same
  exact step _ _ (by simp [SymbolTable.name, SymbolTable.empty, inside, bytes, List.range_succ])

end ValidateCounts

/-! The last session. -/

/-- The messages of the last market session in which anything is shipped. -/
def lastShipping (ms : List Msg) : List Msg :=
  (((marketSessions ms).filter fun part => part.any Msg.ships).getLast?).getD []

theorem since_frames (ms : List Msg) : (since (batchesOf ms)).map Shipped.frame =
    ((lastShipping ms).filter Msg.ships).map Msg.bytes := by
  let g (part : List Msg) : List (List UInt8) := (part.filter Msg.ships).map Msg.bytes
  let cut := Batching.sessions (itemsOf ms)
  have parts : (cut.1 :: cut.2).map (List.map Shipped.frame) = (marketSessions ms).map g :=
    sessions_labels (start 24) ms
  have empty : ∀ part, (!(g part).isEmpty) = part.any Msg.ships := by
    intro part
    rw [Bool.eq_iff_iff]
    simp [g]
  have left : (since (batchesOf ms)).map Shipped.frame =
      ((((cut.1 :: cut.2).map (List.map Shipped.frame)).filter fun items =>
        !items.isEmpty).getLast?).getD [] := by
    rw [batchesOf, Batching.since_batches (by decide), Batching.lastSession, List.filter_map,
      List.getLast?_map]
    have same : ((fun items : List (List UInt8) => !items.isEmpty) ∘ List.map Shipped.frame) =
        fun items => !items.isEmpty := by
      funext items
      simp
    rw [same]
    change List.map Shipped.frame
      (((cut.1 :: cut.2).filter fun items => !items.isEmpty).getLast?.getD []) = _
    cases ((cut.1 :: cut.2).filter fun items => !items.isEmpty).getLast? <;> rfl
  rw [left, parts, List.filter_map, List.getLast?_map, lastShipping]
  simp only [Function.comp_def, empty]
  cases ((marketSessions ms).filter fun part => part.any Msg.ships).getLast? <;> rfl

theorem mem_marketSessions {ms part : List Msg} {m : Msg} (here : part ∈ marketSessions ms)
    (mem : m ∈ part) : m ∈ ms := by
  rw [marketSessions] at here
  induction ms generalizing part with
  | nil =>
    obtain rfl : part = [] := by simpa using here
    cases mem
  | cons x ms ih =>
    rw [List.splitOnP_cons_eq_if_modifyHead] at here
    obtain ⟨first, later, cut⟩ := List.exists_cons_of_ne_nil (List.splitOnP_ne_nil Msg.opens ms)
    rw [cut] at here ih
    split at here
    · rcases List.mem_cons.mp here with rfl | here
      · cases mem
      · exact List.mem_cons_of_mem x (ih here mem)
    · rw [List.modifyHead_cons] at here
      rcases List.mem_cons.mp here with rfl | here
      · rcases List.mem_cons.mp mem with rfl | mem
        · exact List.mem_cons_self
        · exact List.mem_cons_of_mem x (ih List.mem_cons_self mem)
      · exact List.mem_cons_of_mem x (ih (List.mem_cons_of_mem first here) mem)

theorem mem_lastShipping {ms : List Msg} {m : Msg} (mem : m ∈ lastShipping ms) : m ∈ ms := by
  rw [lastShipping] at mem
  cases last : ((marketSessions ms).filter fun part => part.any Msg.ships).getLast? with
  | none =>
    rw [last] at mem
    cases mem
  | some part =>
    rw [last] at mem
    exact mem_marketSessions (List.mem_of_mem_filter (List.mem_of_getLast? last)) mem

theorem sumOf_frames {a : Array64} (sums : a = .vwapNum ∨ a = .vwapDen) (sym : Sym)
    (day : List Shipped) :
    sumOf a sym day = ((day.map Shipped.frame).map (ValidateCounts.flowAt a sym.val)).sum := by
  have flow : ∀ m : Shipped, m.flow a = Shipped.flow a ⟨m.frame, 0, 0⟩ := by
    intro m
    have same : (⟨m.frame, 0, 0⟩ : Shipped).kind = m.kind := rfl
    unfold Shipped.flow
    rw [same]
    cases m.kind with
    | none => cases a <;> rfl
    | some t => cases t <;> rcases sums with rfl | rfl <;> rfl
  induction day with
  | nil => rfl
  | cons m day ih =>
    rw [List.map_cons, List.map_cons, List.sum_cons, ← ih, sumOf, sumOf, List.filter_cons]
    by_cases located : m.locatedAt sym = true
    · have here : (loadBe16 (shift (ptrOf m.frame) Ofs.locate)).toNat = sym.val := by
        simpa [Shipped.locatedAt, Shipped.data] using located
      rw [if_pos located, List.map_cons, List.sum_cons, flow, ValidateCounts.flowAt, if_pos here]
    · have elsewhere : (loadBe16 (shift (ptrOf m.frame) Ofs.locate)).toNat ≠ sym.val := by
        simpa [Shipped.locatedAt, Shipped.data] using located
      rw [if_neg located, ValidateCounts.flowAt, if_neg elsewhere, Nat.zero_add]

theorem flowAt_unshipped {a : Array64} (sums : a = .vwapNum ∨ a = .vwapDen) (l : Nat)
    {f : List UInt8} (exact_ : ExactLength f) (stays : (Msg.ofFrame f).ships = false) :
    ValidateCounts.flowAt a l f = 0 := by
  have type : (Msg.ofFrame f).data Ofs.type = f.headD 0 := by cases f <;> rfl
  have fits : ∀ t : MsgType, gpuRelevant t.code = true → msgLength t.code ≠ 0 →
      msgLength t.code ≤ slotBytes → f.headD 0 ≠ t.code := by
    intro t relevant some_ short is
    have length := exact_.length_eq is some_
    have ships : (Msg.ofFrame f).ships = true :=
      Msg.ships_iff.mpr ⟨by rw [type, is]; exact relevant, length.le.trans short⟩
    rw [ships] at stays
    cases stays
  exact ValidateCounts.flowAt_other sums (fits .trade (by decide) (by decide) (by decide))
    (fits .tradeCross (by decide) (by decide) (by decide)) l

theorem sum_ships {a : Array64} (sums : a = .vwapNum ∨ a = .vwapDen) (l : Nat) {ms : List Msg}
    (exact_ : ∀ m ∈ ms, ∃ f, ExactLength f ∧ m = Msg.ofFrame f) :
    (((ms.filter Msg.ships).map Msg.bytes).map (ValidateCounts.flowAt a l)).sum =
      ((ms.map Msg.bytes).map (ValidateCounts.flowAt a l)).sum := by
  induction ms with
  | nil => rfl
  | cons m ms ih =>
    obtain ⟨⟨f, length, rfl⟩, later⟩ := List.forall_mem_cons.mp exact_
    rw [List.filter_cons, List.map_cons, List.map_cons, List.sum_cons, ← ih later]
    by_cases ships : (Msg.ofFrame f).ships = true
    · rw [if_pos ships, List.map_cons, List.map_cons, List.sum_cons]
    · rw [if_neg ships, Msg.bytes_ofFrame,
        flowAt_unshipped sums l length (Bool.eq_false_iff.mpr ships), Nat.zero_add]

/-! The columns of the final snapshot. -/

/-- The average price of a locate in dollars, as the pass divides it before it rounds to four
places. -/
def ValidateCounts.vwap (v : ValidateCounts) (l : Nat) : ℚ :=
  if v.sharesByLocate l = 0 then 0
  else toDouble (toDouble ((v.numByLocate l : ℚ) / v.sharesByLocate l) / 10000)

theorem ValidateCounts.vwap_snapshot {w : ValidateCounts} {s : Snapshot} {l : Nat}
    (shares : s.volume.toNat = w.sharesByLocate l) (paid : s.vwapNum.toNat = w.numByLocate l)
    (small : w.sharesByLocate l < 2 ^ 53 ∧ w.numByLocate l < 2 ^ 53) :
    s.vwapDouble = w.vwap l := by
  have none : s.volume = 0 ↔ w.sharesByLocate l = 0 := by
    rw [← shares, ← UInt64.toNat_inj]
    rfl
  have num : toDouble (w.numByLocate l : ℚ) = w.numByLocate l := toPrecision_natCast small.2
  have den : toDouble (w.sharesByLocate l : ℚ) = w.sharesByLocate l := toPrecision_natCast small.1
  have twice : ∀ x, toDouble (toDouble x) = toDouble x := toPrecision_toPrecision
  rw [Snapshot.vwapDouble, vwap, dollars, shares, paid, num, den, twice]
  simp only [none]

/-- What a run prints last beside the tables `v` of the whole file and the tables `w` of the
last market session that ships anything. -/
structure Validates {σ : Type} (v w : ValidateCounts) (r : CpuRun 24 σ) (p : SnapshotCsv) :
    Prop where
  total : r.parser.total = v.total
  counts : ∀ t, r.parser.counts t = v.counts t
  last : r.printed.getLast? = some p
  names : ∀ sym : Sym, p.symbols.name sym = (v.names sym).getD []
  volume : ∀ sym : Sym, (p.snap sym).volume.toNat = w.sharesByLocate sym % 2 ^ 64
  paid : ∀ sym : Sym, (p.snap sym).vwapNum.toNat = w.numByLocate sym % 2 ^ 64
  vwap : ∀ sym : Sym, w.sharesByLocate sym < 2 ^ 53 ∧ w.numByLocate sym < 2 ^ 53 →
    (p.snap sym).vwapDouble = w.vwap sym

theorem sumOf_lastShipping {a : Array64} (sums : a = .vwapNum ∨ a = .vwapDen) (sym : Sym)
    {fs : List (List UInt8)} (exact_ : ∀ f ∈ fs, ExactLength f) :
    sumOf a sym (since (batchesOf (fs.map Msg.ofFrame))) =
      (((lastShipping (fs.map Msg.ofFrame)).map Msg.bytes).map
        (ValidateCounts.flowAt a sym.val)).sum := by
  rw [sumOf_frames sums, since_frames, sum_ships sums]
  intro m mem
  obtain ⟨f, here, rfl⟩ := List.mem_map.mp (mem_lastShipping mem)
  exact ⟨f, exact_ f here, rfl⟩

section Validation

open ValidateCounts

variable {fs : List (List UInt8)} {v w : ValidateCounts}

theorem regular_padded (exact_ : ∀ f ∈ fs, ExactLength f) (some_ : ∀ f ∈ fs, f ≠ [])
    (padded : ∀ f ∈ fs, f.headD 0 = 'R'.toUInt8 → Padded f) : ∀ f ∈ fs, Regular f := fun f mem =>
  ⟨exact_ f mem, some_ f mem, fun isR => (padded f mem isR).ascii⟩

theorem regular_lastShipping (regular : ∀ f ∈ fs, Regular f) :
    ∀ f ∈ (lastShipping (fs.map Msg.ofFrame)).map Msg.bytes, Regular f := by
  intro f mem
  obtain ⟨m, here, rfl⟩ := List.mem_map.mp mem
  obtain ⟨f, there, rfl⟩ := List.mem_map.mp (mem_lastShipping here)
  rw [Msg.bytes_ofFrame]
  exact regular f there

theorem Tells.validates {σ : Type} {interval : Nat} {r : CpuRun 24 σ}
    (tells : Tells interval (fs.map Msg.ofFrame) r) (regular : ∀ f ∈ fs, Regular f)
    (padded : ∀ f ∈ fs, f.headD 0 = 'R'.toUInt8 → Padded f) (sums : Sums {} v fs)
    (day : Sums {} w ((lastShipping (fs.map Msg.ofFrame)).map Msg.bytes)) :
    Validates v w r (finalSnapshot interval (fs.map Msg.ofFrame)) := by
  have exact_ : ∀ f ∈ fs, ExactLength f := fun f mem => (regular f mem).exact_
  let p := finalSnapshot interval (fs.map Msg.ofFrame)
  have volume : ∀ sym : Sym, (p.snap sym).volume.toNat = w.sharesByLocate sym % 2 ^ 64 := by
    intro sym
    have shares : w.sharesByLocate sym =
        sumOf .vwapDen sym (since (batchesOf (fs.map Msg.ofFrame))) := by
      rw [day.shares, sumOf_lastShipping (Or.inr rfl) sym exact_]
      exact Nat.zero_add _
    rw [shares]
    exact UInt64.toNat_ofNat'
  have paid : ∀ sym : Sym, (p.snap sym).vwapNum.toNat = w.numByLocate sym % 2 ^ 64 := by
    intro sym
    have num : w.numByLocate sym =
        sumOf .vwapNum sym (since (batchesOf (fs.map Msg.ofFrame))) := by
      rw [day.num, sumOf_lastShipping (Or.inl rfl) sym exact_]
      exact Nat.zero_add _
    rw [num]
    exact UInt64.toNat_ofNat'
  refine ⟨?_, fun t => ?_, ?_, fun sym => ?_, volume, paid, fun sym small => ?_⟩
  · rw [tells.total, sums.total, List.length_map]
    exact (Nat.zero_add _).symm
  · rw [tells.counts, sums.counts, typeCount, List.countP_map]
    simp only [Function.comp_def, Msg.bytes_ofFrame]
    exact (Nat.zero_add _).symm
  · rw [tells.printed, snapshotsOf, List.getLast?_concat]
  · rw [sums.names]
    exact (names_listed regular padded sym.isLt).symm
  · obtain ⟨lowShares, lowPaid⟩ := small
    refine vwap_snapshot ?_ ?_ ⟨lowShares, lowPaid⟩
    · rw [volume, Nat.mod_eq_of_lt (lowShares.trans (by norm_num))]
    · rw [paid, Nat.mod_eq_of_lt (lowPaid.trans (by norm_num))]

variable {σ : Type} {source : ByteSource σ} {left : σ → List UInt8} {s : σ} {opt : Options}

/-- The Python pass agrees with a run without a limit: on the counts and the names in the
whole file, and on the volumes and the average prices since the last market open. -/
theorem runCpu_validates (hsrc : source.Delivers left)
    (exact_ : ∀ f ∈ frames (left s), ExactLength f)
    (padded : ∀ f ∈ frames (left s), f.headD 0 = 'R'.toUInt8 → Padded f)
    (whole : ¬CutOff (leftover (left s))) (all : opt.maxMsgs = 0) :
    ∃ v w, ValidateCounts.main 0 (left s) = .ok v ∧
      ((lastShipping ((frames (left s)).map Msg.ofFrame)).map Msg.bytes).foldlM message {} = .ok w ∧
      (∃ turns r, runCpu source opt turns s = some r) ∧
      ∀ turns r, runCpu source opt turns s = some r → ∃ p, Validates v w r p := by
  have regular := regular_padded exact_ (fun f mem => List.length_pos_iff.mp (frames_length mem).1)
    padded
  obtain ⟨v, passed, sums⟩ := foldlM_sums regular {}
  obtain ⟨w, folded, day⟩ := foldlM_sums (regular_lastShipping regular) {}
  refine ⟨v, w, (main_foldlM whole).trans passed, folded, runCpu_returns hsrc s opt,
    fun turns r result => ?_⟩
  have tells := runCpu_tells hsrc exact_ result
  rw [readUnder, if_pos all] at tells
  exact ⟨_, tells.validates regular padded sums day⟩

def namedTrade : List UInt8 :=
  [0, 39, 82, 0, 7, 0, 0, 0, 0, 0, 0, 0, 0, 65, 65, 80, 76, 32, 32, 32, 32] ++
    List.replicate 20 0 ++ ([0, 44] ++ tradeFrame)

/-- Both list the name. -/
theorem runCpu_validates_trade :
    ∃ v w turns r p, ValidateCounts.main 0 namedTrade = .ok v ∧
      runCpu memSource .default turns namedTrade = some r ∧ Validates v w r p ∧
      p.symbols.name 7 = [65, 65, 80, 76] := by
  have tickers : ∀ f ∈ frames namedTrade, f.headD 0 = 'R'.toUInt8 →
      ValidateCounts.slice f 11 19 = [65, 65, 80, 76] ++ List.replicate 4 ' '.toUInt8 := by
    decide +kernel
  have plain : ∀ c ∈ ([65, 65, 80, 76] : List UInt8),
      c < 128 ∧ ValidateCounts.isSpace c = false ∧ c ≠ 0 := by decide +kernel
  have exact_ : ∀ f ∈ frames namedTrade, ExactLength f := by decide +kernel
  have whole : ¬CutOff (leftover namedTrade) := by decide +kernel
  obtain ⟨v, w, passed, _, ⟨turns, r, result⟩, agrees⟩ :=
    runCpu_validates (s := namedTrade) memSource_delivers exact_
      (fun f mem isR => ⟨_, _, tickers f mem isR, plain⟩) whole (rfl : Options.default.maxMsgs = 0)
  obtain ⟨p, validates⟩ := agrees turns r result
  refine ⟨v, w, turns, r, p, passed, result, validates, ?_⟩
  have names : (ValidateCounts.main 0 namedTrade).map (fun v => v.names 7) =
      .ok (some [65, 65, 80, 76]) := by decide +kernel
  have listed : (Except.ok v : Except ValidateError ValidateCounts).map (fun v => v.names 7) = _ :=
    passed ▸ names
  exact (validates.names 7).trans (congrArg (·.getD []) (Except.ok.inj listed))

end Validation

end ItchAggregator
