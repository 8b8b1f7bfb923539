import QuorumChain.Proofs.Wire.Forms

/-! What a reader is charged, exactly. Most readers only charge, and give a value if all that they
charge is within the limit. A reader of a list first charges the room of all elements, and gives that
of an element back before it reads it; so what has to be within the limit is the peak of the charges,
which is more than what they come to in the end. -/

namespace QuorumChain.Wire

variable {α β : Type} {d : Decoder α} {f : α → Decoder β} {bs p q : List UInt8} {m n peak net : Nat}
  {x : α} {y : β}

/-- In front of `bytes` the reader is charged `peak` at the most and `net` in the end. It gives `x` if
the peak is within the limit, and stops at the limit otherwise. -/
def Charges (d : Decoder α) (bytes : List UInt8) (peak net : Nat) (x : α) : Prop :=
  ∀ k rest, k ≤ limit → d ⟨bytes ++ rest, k⟩ =
    if k + peak ≤ limit then .ok (x, ⟨rest, k + net⟩) else .error .limitExceeded

namespace Charges

theorem ofTakes (h : ∀ k, Takes d bs k x k) : Charges d bs 0 0 x := by
  intro k rest hk
  rw [Nat.add_zero, if_pos hk]
  exact (h k).reads rest

/-- A reader that gives nothing back comes first. -/
theorem bind (hd : Charges d p m m x) (hf : Charges (f x) q peak net y) :
    Charges (d >>= f) (p ++ q) (m + peak) (m + net) y := by
  intro k rest hk
  rw [List.append_assoc]
  have hread := hd k (q ++ rest) hk
  by_cases hm : k + m ≤ limit
  · rw [if_pos hm] at hread
    rw [bind_of_ok hread, hf (k + m) rest hm, Nat.add_assoc, Nat.add_assoc]
  · rw [if_neg hm] at hread
    rw [bind_of_error hread, if_neg (by omega)]

theorem into (hd : Charges d bs peak net x) (hf : f x = pure y) : Charges (d >>= f) bs peak net y := by
  intro k rest hk
  have hread := hd k rest hk
  by_cases hpeak : k + peak ≤ limit
  · rw [if_pos hpeak] at hread ⊢
    rw [bind_of_ok hread, hf]
    rfl
  · rw [if_neg hpeak] at hread ⊢
    exact bind_of_error hread

theorem charged (n : Nat) (hd : Charges d bs peak net x) :
    Charges (charge n >>= fun _ => d) bs (n + peak) (n + net) x :=
  bind (d := charge n) (p := []) (fun _ _ _ => rfl) hd

end Charges

theorem charges_varint {wide : Bool} (h : n < 2 ^ 32 ∨ wide = true ∧ n < 2 ^ 64) :
    Charges (takeVarint wide) (varintBytes n) 0 0 n :=
  .ofTakes (varintForm_varintBytes h).takes

namespace Codec

variable {c : Codec α} {e : Codec β} {size : Nat}

/-- The reader is charged the price of the value and gives nothing back. -/
def Metered (c : Codec α) : Prop := ∀ x, Charges c.decode (c.encode x) (c.cost x) (c.cost x) x

theorem metered_fixed (n : Nat) : (fixed n).Metered := fun x =>
  (Charges.ofTakes (takes_take x)).charged n

theorem metered_byte : byte.Metered := fun b =>
  (Charges.ofTakes (takes_takeByte b)).charged 1

theorem metered_u32 : u32.Metered := fun v =>
  .charged 4 ((charges_varint (.inl v.toNat_lt)).into (by rw [UInt32.ofNat_toNat]))

theorem metered_counter (kind : CounterKind) : (counter kind).Metered := fun v =>
  .charged 8 ((charges_varint (.inr ⟨rfl, v.number_lt⟩)).into (by rw [Counter.ofNatClamped_number]))

theorem Metered.via (hc : c.Metered) {wrap : α → β} {unwrap : β → α} (hwrap : ∀ y, wrap (unwrap y) = y) :
    (c.via wrap unwrap).Metered := fun y =>
  (hc (unwrap y)).into (by rw [hwrap])

theorem metered_counterBytes (kind : CounterKind) : (counterBytes kind).Metered :=
  (metered_fixed 8).via Counter.ofBytes_toBytes

theorem Metered.pair (hc : c.Metered) (he : e.Metered) : (c.pair e).Metered := fun x =>
  (hc x.1).bind ((he x.2).into rfl)

theorem Metered.option (hc : c.Metered) : c.option.Metered := fun x => by
  cases x with
  | none => exact (metered_byte 0).into rfl
  | some x => exact (metered_byte 1).bind ((hc x).into rfl)

theorem charges_length (k : Nat) : Charges takeLength (lengthBytes k) 8 8 (min k (2 ^ 64 - 1)) :=
  (metered_counter .serial (.ofNatClamped k)).into rfl

/-- A charge above the limit stops whatever comes after it. -/
theorem charges_over {f : Unit → Decoder β} (h : limit < n) (hn : n ≤ peak) :
    Charges (charge n >>= f) bs peak net y := by
  intro k rest _
  rw [if_neg (by omega)]
  exact bind_of_error (charge_over (by omega))

theorem metered_bytes : bytes.Metered := by
  intro bs
  refine (charges_length bs.length).bind ?_
  by_cases h : bs.length < 2 ^ 64
  · rw [Nat.min_eq_left (by omega)]
    have htake : Charges (take bs.length) bs 0 0 ⟨bs, rfl⟩ := .ofTakes (takes_take ⟨bs, rfl⟩)
    refine Charges.charged bs.length (htake.into ?_)
    rfl
  · -- the greatest length is told instead, which is over the limit
    exact charges_over (Nat.lt_min.mpr ⟨by unfold limit; omega, by decide⟩) (Nat.min_le_left _ _)

/-- The most that stands charged while elements are read: room for those that are not read yet, and
the prices of the others. -/
def listPeak (size : Nat) (c : Codec α) : List α → Nat
  | [] => 0
  | x :: xs => max ((xs.length + 1) * size) (c.cost x + listPeak size c xs)

theorem room_le_listPeak (xs : List α) : xs.length * size ≤ listPeak size c xs := by
  cases xs with
  | nil => exact Nat.le_of_eq (Nat.zero_mul size)
  | cons x xs => exact Nat.le_max_left _ _

theorem add_listPeak_cons_le (x : α) (xs : List α) :
    n + listPeak size c (x :: xs) ≤ m ↔
      n + (xs.length + 1) * size ≤ m ∧ n + c.cost x + listPeak size c xs ≤ m := by
  show n + max ((xs.length + 1) * size) (c.cost x + listPeak size c xs) ≤ m ↔ _
  omega

/-- The peak is what stands charged after some of the elements. -/
theorem add_listPeak_le_iff (xs : List α) :
    n + listPeak size c xs ≤ m ↔
      ∀ i ≤ xs.length, n + (xs.length - i) * size + ((xs.take i).map c.cost).foldr (· + ·) 0 ≤ m := by
  induction xs generalizing n with
  | nil => simp [listPeak]
  | cons x xs ih =>
    rw [add_listPeak_cons_le, ih]
    constructor
    · rintro ⟨hroom, hrest⟩ i hi
      cases i with
      | zero => simpa using hroom
      | succ i =>
        have h := hrest i (Nat.le_of_succ_le_succ hi)
        simp only [List.take_succ_cons, List.map_cons, List.foldr_cons, List.length_cons,
          Nat.add_sub_add_right]
        omega
    · intro h
      refine ⟨by simpa using h 0 (Nat.zero_le _), fun i hi => ?_⟩
      have h := h (i + 1) (Nat.succ_le_succ hi)
      simp only [List.take_succ_cons, List.map_cons, List.foldr_cons, List.length_cons,
        Nat.add_sub_add_right] at h
      omega

/-- An element whose room is charged, besides `k`: the room is given back and the price is charged. -/
theorem element_charged (hc : c.Metered) (x : α) {k : Nat} (hk : k ≤ limit) (rest : List UInt8) :
    (refund size >>= fun _ => c.decode >>= f) ⟨c.encode x ++ rest, k + size⟩ =
      if k + c.cost x ≤ limit then f x ⟨rest, k + c.cost x⟩ else .error .limitExceeded := by
  have hback : refund size ⟨c.encode x ++ rest, k + size⟩ = .ok ((), ⟨c.encode x ++ rest, k⟩) := by
    rw [refund, Nat.add_sub_cancel]
  have hread := hc x k rest hk
  rw [bind_of_ok hback]
  by_cases hcost : k + c.cost x ≤ limit
  · rw [if_pos hcost] at hread ⊢
    exact bind_of_ok hread
  · rw [if_neg hcost] at hread ⊢
    exact bind_of_error hread

/-- The room of all elements is charged already, besides `k`. -/
theorem many_charged (hc : c.Metered) (xs : List α) {k : Nat} (hk : k + xs.length * size ≤ limit)
    (rest : List UInt8) :
    decodeMany size c xs.length ⟨xs.flatMap c.encode ++ rest, k + xs.length * size⟩ =
      if k + listPeak size c xs ≤ limit then .ok (xs, ⟨rest, k + (xs.map c.cost).foldr (· + ·) 0⟩)
      else .error .limitExceeded := by
  induction xs generalizing k with
  | nil =>
    rw [if_pos (by simpa [listPeak] using hk)]
    simp only [List.length_nil, Nat.zero_mul, List.map_nil, List.foldr_nil]
    rfl
  | cons x xs ih =>
    have hroom : k + (xs.length + 1) * size = k + xs.length * size + size := by
      rw [Nat.succ_mul, Nat.add_assoc]
    have hpeak : k + listPeak size c (x :: xs) ≤ limit ↔ k + c.cost x + listPeak size c xs ≤ limit :=
      (add_listPeak_cons_le x xs).trans (and_iff_right hk)
    have hnext : k + xs.length * size + c.cost x = k + c.cost x + xs.length * size :=
      Nat.add_right_comm k _ _
    rw [List.length_cons] at hk ⊢
    show (refund size >>= fun _ => c.decode >>= _) _ = _
    rw [List.flatMap_cons, List.append_assoc, hroom, element_charged hc x (by omega), hnext]
    simp only [hpeak]
    by_cases hcost : k + c.cost x + xs.length * size ≤ limit
    · rw [if_pos hcost]
      have hread := ih hcost
      by_cases hfits : k + c.cost x + listPeak size c xs ≤ limit
      · rw [if_pos hfits] at hread ⊢
        rw [bind_of_ok hread, List.map_cons, List.foldr_cons, ← Nat.add_assoc]
        rfl
      · rw [if_neg hfits] at hread ⊢
        exact bind_of_error hread
    · -- the price of this element is over the limit, and the room of the others is part of the peak
      have hle : xs.length * size ≤ listPeak size c xs := room_le_listPeak xs
      rw [if_neg hcost, if_neg (by omega)]

/-- A list is read if its peak is within the limit. -/
theorem charges_list (hc : c.Metered) (hsize : 0 < size) (xs : List α) :
    Charges (list size c).decode ((list size c).encode xs) (8 + listPeak size c xs)
      (8 + (xs.map c.cost).foldr (· + ·) 0) xs := by
  refine (charges_length xs.length).bind ?_
  have hroom : xs.length * size ≤ listPeak size c xs := room_le_listPeak xs
  by_cases h : xs.length < 2 ^ 64
  · rw [Nat.min_eq_left (by omega)]
    intro k rest hk
    by_cases hcharge : k + xs.length * size ≤ limit
    · have hmade : charge (xs.length * size) ⟨xs.flatMap c.encode ++ rest, k⟩ =
          .ok ((), ⟨xs.flatMap c.encode ++ rest, k + xs.length * size⟩) := (takes_charge hcharge).reads _
      rw [bind_of_ok hmade]
      exact many_charged hc xs hcharge rest
    · rw [bind_of_error (charge_over (by omega)), if_neg (by omega)]
  · -- what is told is the greatest length, and room for so many elements is over the limit
    have hcount : 2 ^ 64 - 1 ≤ xs.length := by omega
    rw [Nat.min_eq_right hcount]
    refine charges_over ?_ (Nat.le_trans (Nat.mul_le_mul_right size hcount) hroom)
    exact Nat.lt_of_lt_of_le (by decide) (Nat.le_mul_of_pos_right _ hsize)

theorem decodeWhole_charged (h : Charges c.decode bs peak net x) :
    c.decodeWhole bs = if peak ≤ limit then .ok x else .error .limitExceeded := by
  have hread := h 0 [] (Nat.zero_le _)
  rw [List.append_nil, Nat.zero_add] at hread
  by_cases hpeak : peak ≤ limit
  · rw [if_pos hpeak] at hread ⊢
    exact decodeWhole_eq_ok.mpr ⟨_, hread⟩
  · rw [if_neg hpeak] at hread ⊢
    exact decodeWhole_of_error hread

end Codec

end QuorumChain.Wire

namespace QuorumChain

open Wire Codec

theorem Header.metered_codec : Header.codec.Metered :=
  ((metered_counterBytes .height).pair <| ((metered_fixed 32).via fun _ => rfl).option.pair <|
    (metered_counterBytes .timestamp).pair <| metered_u32.pair <|
      (metered_fixed 32).via fun _ => rfl).via fun _ => rfl

theorem Transaction.metered_codec : Transaction.codec.Metered :=
  metered_bytes.via fun _ => rfl

/-- What stands charged while a proposal is read, after some of its transactions: its tag and header and
the number of transactions, room for the transactions that are not read yet, and what was charged for
the others. -/
def Block.proposalCharge (b : Block) (read : Nat) : Nat :=
  (if b.header.parent = none then 65 else 97) + (b.transactions.length - read) * 24 +
    ((b.transactions.take read).map fun tx => 8 + tx.bytes.length).foldr (· + ·) 0

/-- At every moment of reading a proposal what stands charged is within the limit. -/
def Block.FitsLimit (b : Block) : Prop := ∀ read ≤ b.transactions.length, b.proposalCharge read ≤ limit

instance (b : Block) : Decidable b.FitsLimit :=
  inferInstanceAs (Decidable (∀ read ≤ b.transactions.length, b.proposalCharge read ≤ limit))

theorem Block.fitsLimit_iff (b : Block) :
    b.FitsLimit ↔ 4 + (Header.codec.cost b.header + (8 + listPeak 24 Transaction.codec b.transactions)) ≤ limit := by
  have hbase : 4 + (Header.codec.cost b.header + 8) = if b.header.parent = none then 65 else 97 := by
    show 4 + (8 + (BlockId.codec.option.cost b.header.parent + (8 + (4 + 32))) + 8) = _
    cases b.header.parent with
    | none => rfl
    | some id => rfl
  rw [← Nat.add_assoc, ← Nat.add_assoc, Nat.add_assoc 4, hbase, add_listPeak_le_iff]
  exact Iff.rfl

/-- **A proposal is read back if at every moment what stands charged is within the limit**, and reading
it stops at the limit otherwise. -/
theorem Block.proposal_read (b : Block) :
    Message.codec.decodeWhole (Message.codec.encode (.unfinishedBlock b)) =
      if b.FitsLimit then .ok (.unfinishedBlock b) else .error .limitExceeded := by
  have hlist := charges_list Transaction.metered_codec (by decide : 0 < 24) b.transactions
  have htag : Charges takeTag (tagBytes 2) 4 4 2 := .charged 4 (charges_varint (.inl (by decide)))
  have hpair : Charges (Header.codec.pair (list 24 Transaction.codec)).decode (Block.codec.encode b) _ _
      (b.header, b.transactions) := (Header.metered_codec b.header).bind (hlist.into rfl)
  have hblock : Charges Block.codec.decode (Block.codec.encode b) _ _ b := hpair.into rfl
  have hread := decodeWhole_charged (c := Message.codec) (htag.bind (hblock.into rfl))
  by_cases hfits : b.FitsLimit
  · rw [if_pos (b.fitsLimit_iff.mp hfits)] at hread
    rw [if_pos hfits]
    exact hread
  · rw [if_neg (mt b.fitsLimit_iff.mpr hfits)] at hread
    rw [if_neg hfits]
    exact hread

end QuorumChain
