import QuorumChain.Proofs.Change
import QuorumChain.Wire.Codec

/-! Readers, one after the other. A reader takes some bytes in front of it, waits for every one of them
and leaves what follows alone; what it is charged on the way depends on the values it reads. -/

namespace QuorumChain.Wire

variable {α β : Type} {d : Decoder α} {f : α → Decoder β} {bs p q rest : List UInt8}
  {k k₁ k₂ price more : Nat} {x : α} {y : β}

theorem bind_of_ok {c c' : Cursor} (h : d c = .ok (x, c')) : (d >>= f) c = f x c' := by
  show (d c >>= fun r => f r.1 r.2) = f x c'
  rw [h]
  rfl

theorem bind_of_error {c : Cursor} {e : WireError} (h : d c = .error e) : (d >>= f) c = .error e := by
  show (d c >>= fun r => f r.1 r.2) = .error e
  rw [h]
  rfl

/-- What a sequence of two readers gives, the second one gives after the first. -/
theorem sequence_eq_ok {c c' : Cursor} :
    (d >>= f) c = .ok (y, c') ↔ ∃ x r k, d c = .ok (x, ⟨r, k⟩) ∧ f x ⟨r, k⟩ = .ok (y, c') := by
  have hbind : (d >>= f) c = (d c >>= fun r => f r.1 r.2) := rfl
  rw [hbind, bind_eq_ok]
  constructor
  · rintro ⟨⟨x, r, k⟩, hd, hf⟩
    exact ⟨x, r, k, hd, hf⟩
  · rintro ⟨x, r, k, hd, hf⟩
    exact ⟨⟨x, r, k⟩, hd, hf⟩

/-- The reader takes exactly the bytes `taken` and gives `x`, the charges going from `k` to `k'`. It does
not look at what follows, and none of the bytes may be missing. -/
structure Takes (d : Decoder α) (taken : List UInt8) (k : Nat) (x : α) (k' : Nat) : Prop where
  reads : ∀ rest, d ⟨taken ++ rest, k⟩ = .ok (x, ⟨rest, k'⟩)
  waits : ∀ part missing, taken = part ++ missing → missing ≠ [] → d ⟨part, k⟩ = .error .unexpectedEnd

namespace Takes

theorem ofNothing (h : ∀ rest, d ⟨rest, k⟩ = .ok (x, ⟨rest, k₁⟩)) : Takes d [] k x k₁ where
  reads := h
  waits _ _ heq hne := absurd (List.append_eq_nil_iff.mp heq.symm).2 hne

theorem pure (x : α) (k : Nat) : Takes (Pure.pure x : Decoder α) [] k x k :=
  ofNothing fun _ => rfl

theorem bind (hd : Takes d p k x k₁) (hf : Takes (f x) q k₁ y k₂) : Takes (d >>= f) (p ++ q) k y k₂ where
  reads rest := by
    rw [List.append_assoc, bind_of_ok (hd.reads _)]
    exact hf.reads rest
  waits part missing h hne := by
    rcases List.append_eq_append_iff.mp h with ⟨later, rfl, hq⟩ | ⟨lost, rfl, rfl⟩
    · rw [bind_of_ok (hd.reads later)]
      exact hf.waits later missing hq hne
    · by_cases hlost : lost = []
      · -- all bytes of the first reader are there, none of the second
        subst hlost
        rw [List.append_nil] at hd
        have hread := hd.reads []
        rw [List.append_nil] at hread
        rw [bind_of_ok hread]
        exact hf.waits [] q rfl hne
      · exact bind_of_error (hd.waits part lost rfl hlost)

/-- What comes after the reader gives its result without reading. -/
theorem into (hd : Takes d p k x k₁) (hf : f x = Pure.pure y) : Takes (d >>= f) p k y k₁ := by
  have hpure : Takes (f x) [] k₁ y k₁ := hf ▸ Takes.pure y k₁
  have h := hd.bind hpure
  rwa [List.append_nil] at h

end Takes

/-- In front of `bytes` the reader gives `x`, or stops at the limit. It does not stop if as much as the
price is left. -/
def Yields (d : Decoder α) (bytes : List UInt8) (price : Nat) (x : α) : Prop :=
  ∀ k rest, (∃ k', k' ≤ k + price ∧ d ⟨bytes ++ rest, k⟩ = .ok (x, ⟨rest, k'⟩)) ∨
    (limit < k + price ∧ d ⟨bytes ++ rest, k⟩ = .error .limitExceeded)

namespace Yields

theorem ofTakes {bytes : List UInt8} (h : ∀ k, ∃ k' ≤ k + price, Takes d bytes k x k') :
    Yields d bytes price x := by
  intro k rest
  obtain ⟨k', hk', htakes⟩ := h k
  exact .inl ⟨k', hk', htakes.reads rest⟩

theorem bind (hd : Yields d p price x) (hf : Yields (f x) q more y) :
    Yields (d >>= f) (p ++ q) (price + more) y := by
  intro k rest
  rw [List.append_assoc]
  rcases hd k (q ++ rest) with ⟨k₁, hk₁, hread⟩ | ⟨hover, hstop⟩
  · rw [bind_of_ok hread]
    rcases hf k₁ rest with ⟨k₂, hk₂, hread⟩ | ⟨hover, hstop⟩
    · exact .inl ⟨k₂, by omega, hread⟩
    · exact .inr ⟨by omega, hstop⟩
  · exact .inr ⟨by omega, bind_of_error hstop⟩

theorem into (hd : Yields d p price x) (hf : f x = Pure.pure y) : Yields (d >>= f) p price y := by
  have hpure : Yields (f x) [] 0 y := ofTakes fun k => ⟨k, Nat.le_refl _, hf ▸ Takes.pure y k⟩
  have h := hd.bind hpure
  rwa [List.append_nil] at h

end Yields

section Steps

variable {n : Nat} {c : Cursor}

theorem charge_over (h : limit < k + n) : charge n ⟨bs, k⟩ = .error .limitExceeded :=
  if_neg (Nat.not_le_of_lt h)

theorem takes_charge (h : k + n ≤ limit) : Takes (charge n) [] k () (k + n) :=
  .ofNothing fun _ => if_pos h

theorem charge_eq_ok {u : Unit} (h : charge n ⟨bs, k⟩ = .ok (u, c)) : k + n ≤ limit ∧ c = ⟨bs, k + n⟩ := by
  by_cases hle : k + n ≤ limit
  · rw [show charge n ⟨bs, k⟩ = .ok ((), ⟨bs, k + n⟩) from if_pos hle] at h
    cases h
    exact ⟨hle, rfl⟩
  · rw [charge_over (Nat.lt_of_not_le hle)] at h
    cases h

theorem yields_charge (n : Nat) : Yields (charge n) [] n () := by
  intro k rest
  by_cases h : k + n ≤ limit
  · exact .inl ⟨k + n, Nat.le_refl _, (takes_charge h).reads rest⟩
  · exact .inr ⟨Nat.lt_of_not_le h, charge_over (Nat.lt_of_not_le h)⟩

/-- A charge above the limit stops whatever comes after it. -/
theorem yields_charge_over {f : Unit → Decoder β} (h : limit < n) (hn : n ≤ price) :
    Yields (charge n >>= f) bs price y := by
  intro k rest
  exact .inr ⟨by omega, bind_of_error (charge_over (by omega))⟩

theorem takes_refund (n k : Nat) : Takes (refund n) [] k () (k - n) :=
  .ofNothing fun _ => rfl

theorem yields_refund (n : Nat) : Yields (refund n) [] 0 () :=
  .ofTakes fun k => ⟨k - n, Nat.sub_le k n, takes_refund n k⟩

theorem take_short (h : bs.length < n) : take n ⟨bs, k⟩ = .error .unexpectedEnd := by
  have hlen : ¬ (bs.take n).length = n := by
    rw [List.length_take]
    omega
  unfold take FixedBytes.ofList?
  rw [dif_neg hlen]

theorem takes_take (x : FixedBytes n) (k : Nat) : Takes (take n) x.bytes k x k where
  reads rest := by
    unfold take
    simp only [List.take_left' x.length_eq, List.drop_left' x.length_eq, FixedBytes.ofList?_bytes]
  waits part missing h hne := by
    apply take_short
    have hlen := congrArg List.length h
    have hpos := List.length_pos_iff.mpr hne
    rw [x.length_eq, List.length_append] at hlen
    omega

theorem take_eq_ok {x : FixedBytes n} (h : take n ⟨bs, k⟩ = .ok (x, c)) :
    bs = x.bytes ++ c.rest ∧ c.charged = k := by
  by_cases hlen : n ≤ bs.length
  · have htaken : (bs.take n).length = n := List.length_take_of_le hlen
    have hread := (takes_take ⟨bs.take n, htaken⟩ k).reads (bs.drop n)
    rw [List.take_append_drop, h] at hread
    cases hread
    exact ⟨(List.take_append_drop n bs).symm, rfl⟩
  · rw [take_short (Nat.lt_of_not_le hlen)] at h
    cases h

theorem takeByte_eq_ok {b : UInt8} (h : takeByte ⟨bs, k⟩ = .ok (b, c)) : bs = b :: c.rest ∧ c.charged = k := by
  cases bs with
  | nil => cases h
  | cons a bs =>
      cases h
      exact ⟨rfl, rfl⟩

theorem takes_takeByte (b : UInt8) (k : Nat) : Takes takeByte [b] k b k where
  reads _ := rfl
  waits part missing h hne := by
    cases part with
    | nil => rfl
    | cons a part =>
        obtain ⟨_, hnil⟩ := List.cons.inj h
        exact absurd (List.append_eq_nil_iff.mp hnil.symm).2 hne

end Steps

end QuorumChain.Wire
