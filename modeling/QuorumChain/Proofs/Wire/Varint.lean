import QuorumChain.Proofs.Wire.Reading

/-! Numbers of variable length. A reader takes a number in any form that is wide enough for it, and the
writer uses the shortest one. Two byte strings that differ only so have the same meaning. -/

namespace QuorumChain.Wire

variable {bs form own given own' given' : List UInt8} {k n v : Nat} {wide : Bool} {c : Cursor}

/-- The forms in which a number is taken: of up to 64 bits if `wide`, of up to 32 bits otherwise. -/
inductive VarintForm (wide : Bool) (v : Nat) : List UInt8 → Prop
  | one (h : v < 251) : VarintForm wide v [UInt8.ofNat v]
  | two (h : v < 2 ^ 16) : VarintForm wide v (251 :: bytesOfNat 2 v)
  | four (h : v < 2 ^ 32) : VarintForm wide v (252 :: bytesOfNat 4 v)
  | eight (h : v < 2 ^ 64) (hwide : wide = true) : VarintForm wide v (253 :: bytesOfNat 8 v)

theorem varintForm_varintBytes (h : v < 2 ^ 32 ∨ wide = true ∧ v < 2 ^ 64) :
    VarintForm wide v (varintBytes v) := by
  unfold varintBytes
  split
  next hone => exact .one hone
  next =>
    split
    next htwo => exact .two htwo
    next =>
      split
      next hfour => exact .four hfour
      next hfour =>
        obtain ⟨hwide, height⟩ := h.resolve_left hfour
        exact .eight height hwide

theorem length_varintBytes (v : Nat) : (varintBytes v).length =
    if v < 251 then 1 else if v < 2 ^ 16 then 3 else if v < 2 ^ 32 then 5 else 9 := by
  unfold varintBytes
  simp only [apply_ite List.length, List.length_cons, List.length_nil, length_bytesOfNat]

namespace VarintForm

theorem toWide (h : VarintForm wide v form) : VarintForm true v form := by
  cases h with
  | one h => exact .one h
  | two h => exact .two h
  | four h => exact .four h
  | eight h _ => exact .eight h rfl

theorem lt (h : VarintForm wide v form) : v < 2 ^ 64 := by
  cases h <;> omega

theorem lt_of_narrow (h : VarintForm false v form) : v < 2 ^ 32 := by
  cases h with
  | one h => omega
  | two h => omega
  | four h => exact h
  | eight _ hwide => cases hwide

/-- No form is shorter than the written one. -/
theorem length_varintBytes_le (h : VarintForm wide v form) : (varintBytes v).length ≤ form.length := by
  rw [length_varintBytes]
  cases h with
  | one h => simp [h]
  | two h => grind [length_bytesOfNat]
  | four h => grind [length_bytesOfNat]
  | eight h _ => grind [length_bytesOfNat]

/-- Another form than the written one is longer. -/
theorem eq_of_length_le (h : VarintForm wide v form) (hle : form.length ≤ (varintBytes v).length) :
    form = varintBytes v := by
  rw [length_varintBytes] at hle
  unfold varintBytes
  cases h with
  | one h => rw [if_pos h]
  | two h => grind [length_bytesOfNat]
  | four h => grind [length_bytesOfNat]
  | eight h _ => grind [length_bytesOfNat]

end VarintForm

/-- A number of a fixed number of bytes. -/
theorem takes_number (h : v < 256 ^ n) (k : Nat) :
    Takes (do return natOfBytes (← take n).bytes) (bytesOfNat n v) k v k := by
  refine (takes_take ⟨bytesOfNat n v, length_bytesOfNat n v⟩ k).into ?_
  rw [natOfBytes_bytesOfNat, Nat.mod_eq_of_lt h]

theorem number_eq_ok (h : (do return natOfBytes (← take n).bytes : Decoder Nat) ⟨bs, k⟩ = .ok (v, c)) :
    v < 256 ^ n ∧ bs = bytesOfNat n v ++ c.rest ∧ c.charged = k := by
  obtain ⟨x, r, k₁, htake, h⟩ := sequence_eq_ok.mp h
  cases h
  obtain ⟨rfl, rfl⟩ := take_eq_ok htake
  have hlt := natOfBytes_lt x.bytes
  rw [x.length_eq] at hlt
  exact ⟨hlt, by rw [bytesOfNat_natOfBytes x.length_eq], rfl⟩

/-- A reader that takes a byte and then goes on as another one. -/
theorem Takes.cons {α : Type} {d e : Decoder α} {b : UInt8} {x : α} {k' : Nat}
    (hd : ∀ bs, d ⟨b :: bs, k⟩ = e ⟨bs, k⟩) (hnil : d ⟨[], k⟩ = .error .unexpectedEnd)
    (he : Takes e bs k x k') : Takes d (b :: bs) k x k' where
  reads rest := (hd (bs ++ rest)).trans (he.reads rest)
  waits part missing h hne := by
    cases part with
    | nil => exact hnil
    | cons a part =>
        obtain ⟨rfl, rfl⟩ := List.cons.inj h
        rw [hd]
        exact he.waits part missing rfl hne

theorem takeVarint_small {b : UInt8} (hb : b < 251) (bs : List UInt8) :
    takeVarint wide ⟨b :: bs, k⟩ = .ok (b.toNat, ⟨bs, k⟩) := by
  show (if b < 251 then (pure b.toNat : Decoder Nat) else _) ⟨bs, k⟩ = _
  rw [if_pos hb]
  rfl

theorem VarintForm.takes (h : VarintForm wide v form) (k : Nat) : Takes (takeVarint wide) form k v k := by
  cases h with
  | one h =>
      have hb : UInt8.ofNat v < 251 := by
        rw [UInt8.lt_iff_toNat_lt, UInt8.toNat_ofNat']
        exact Nat.lt_of_le_of_lt (Nat.mod_le _ _) h
      have hnat : (UInt8.ofNat v).toNat = v := by
        rw [UInt8.toNat_ofNat']
        exact Nat.mod_eq_of_lt (by omega)
      refine .cons (fun bs => ?_) rfl (.pure v k)
      rw [takeVarint_small hb, hnat]
      rfl
  | two h => exact .cons (fun _ => rfl) rfl (takes_number h k)
  | four h => exact .cons (fun _ => rfl) rfl (takes_number h k)
  | eight h hwide =>
      subst hwide
      exact .cons (fun _ => rfl) rfl (takes_number h k)

/-- Whatever is taken for a number is one of its forms. -/
theorem takeVarint_eq_ok (h : takeVarint wide ⟨bs, k⟩ = .ok (v, c)) :
    c.charged = k ∧ ∃ form, VarintForm wide v form ∧ bs = form ++ c.rest := by
  cases bs with
  | nil => cases h
  | cons b bs =>
      by_cases hb : b < 251
      · rw [takeVarint_small hb] at h
        cases h
        have hform : VarintForm wide b.toNat [UInt8.ofNat b.toNat] := .one hb
        rw [UInt8.ofNat_toNat] at hform
        exact ⟨rfl, [b], hform, rfl⟩
      · rw [UInt8.lt_iff_toNat_lt] at hb
        obtain rfl | rfl | rfl | rfl | rfl : b = 251 ∨ b = 252 ∨ b = 253 ∨ b = 254 ∨ b = 255 := by
          have hlt := b.toNat_lt
          simp only [← UInt8.toNat_inj, UInt8.reduceToNat] at hb ⊢
          omega
        · obtain ⟨hv, rfl, hk⟩ := number_eq_ok (n := 2) h
          exact ⟨hk, _, .two hv, rfl⟩
        · obtain ⟨hv, rfl, hk⟩ := number_eq_ok (n := 4) h
          exact ⟨hk, _, .four hv, rfl⟩
        · cases wide with
          | false => cases h
          | true =>
              obtain ⟨hv, rfl, hk⟩ := number_eq_ok (n := 8) h
              exact ⟨hk, _, .eight hv rfl, rfl⟩
        · cases h
        · cases h

/-- The two byte strings are the same but for numbers: the second one may have a longer form where the
first one has the shortest. -/
inductive Widened : List UInt8 → List UInt8 → Prop
  | nil : Widened [] []
  | byte (b : UInt8) {own given : List UInt8} (h : Widened own given) : Widened (b :: own) (b :: given)
  | number {v : Nat} {form own given : List UInt8} (hform : VarintForm true v form) (h : Widened own given) :
      Widened (varintBytes v ++ own) (form ++ given)

namespace Widened

theorem refl (bs : List UInt8) : Widened bs bs := by
  induction bs with
  | nil => exact .nil
  | cons b bs ih => exact .byte b ih

theorem append (h : Widened own given) (h' : Widened own' given') : Widened (own ++ own') (given ++ given') := by
  induction h with
  | nil => exact h'
  | byte b _ ih => exact .byte b ih
  | number hform _ ih =>
      rw [List.append_assoc, List.append_assoc]
      exact .number hform ih

theorem length_le (h : Widened own given) : own.length ≤ given.length := by
  induction h with
  | nil => exact Nat.le_refl _
  | byte b _ ih => exact Nat.succ_le_succ ih
  | number hform _ ih =>
      rw [List.length_append, List.length_append]
      exact Nat.add_le_add hform.length_varintBytes_le ih

theorem eq_of_length_le (h : Widened own given) (hle : given.length ≤ own.length) : given = own := by
  induction h with
  | nil => rfl
  | byte b _ ih => rw [ih (Nat.le_of_succ_le_succ hle)]
  | number hform h ih =>
      have hlen := hform.length_varintBytes_le
      have hrest := h.length_le
      rw [List.length_append, List.length_append] at hle
      rw [hform.eq_of_length_le (by omega), ih (by omega)]

end Widened

end QuorumChain.Wire
