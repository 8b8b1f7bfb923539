import QuorumChain.Proofs.Wire.Varint

/-! Codecs whose reader undoes their writer, and how they are put together. A lawful codec reads what it
has written, at no more than the price of the value; and whatever it reads, it could have read from the
written form of the value at the same charges. -/

namespace QuorumChain.Wire

variable {α β : Type} {d : Decoder α} {f : α → Decoder β} {bs rest taken own p q u v : List UInt8}
  {k k₁ k₂ n price : Nat} {x : α} {y : β} {c : Cursor}

/-- The reader takes `x` from the bytes `taken`, and takes it from the bytes `own` with the same charges.
The two differ in the length of numbers only. -/
structure Respells (d : Decoder α) (taken own : List UInt8) (k : Nat) (x : α) (k' : Nat) : Prop where
  takes : Takes d taken k x k'
  takesOwn : Takes d own k x k'
  widened : Widened own taken

namespace Respells

theorem same (h : Takes d taken k x k₁) : Respells d taken taken k x k₁ := ⟨h, h, .refl taken⟩

theorem bind (hd : Respells d p u k x k₁) (hf : Respells (f x) q v k₁ y k₂) :
    Respells (d >>= f) (p ++ q) (u ++ v) k y k₂ :=
  ⟨hd.takes.bind hf.takes, hd.takesOwn.bind hf.takesOwn, hd.widened.append hf.widened⟩

theorem into (hd : Respells d p u k x k₁) (hf : f x = pure y) : Respells (d >>= f) p u k y k₁ :=
  ⟨hd.takes.into hf, hd.takesOwn.into hf, hd.widened⟩

theorem charged (hd : Respells d p u (k + n) x k₁) (h : k + n ≤ limit) :
    Respells (charge n >>= fun _ => d) p u k x k₁ :=
  (same (takes_charge h)).bind hd

end Respells

theorem Yields.charged (n : Nat) (hd : Yields d bs price x) :
    Yields (charge n >>= fun _ => d) bs (n + price) x :=
  (yields_charge n).bind hd

theorem charged_eq_ok (h : (charge n >>= fun _ => d) ⟨bs, k⟩ = .ok (x, c)) :
    k + n ≤ limit ∧ d ⟨bs, k + n⟩ = .ok (x, c) := by
  obtain ⟨_, r, k₁, hcharge, h⟩ := sequence_eq_ok.mp h
  obtain ⟨hle, hr⟩ := charge_eq_ok hcharge
  cases hr
  exact ⟨hle, h⟩

theorem varint_read {wide : Bool} (h : takeVarint wide ⟨bs, k⟩ = .ok (n, c)) :
    c.charged = k ∧ ∃ taken, bs = taken ++ c.rest ∧ Respells (takeVarint wide) taken (varintBytes n) k n k ∧
      n < 2 ^ 64 ∧ (wide = false → n < 2 ^ 32) := by
  obtain ⟨hk, form, hform, rfl⟩ := takeVarint_eq_ok h
  have hown : VarintForm wide n (varintBytes n) := by
    cases wide with
    | false => exact varintForm_varintBytes (.inl hform.lt_of_narrow)
    | true => exact varintForm_varintBytes (.inr ⟨rfl, hform.lt⟩)
  refine ⟨hk, form, rfl, ⟨hform.takes k, hown.takes k, ?_⟩, hform.lt, ?_⟩
  · have hwidened := Widened.number hform.toWide .nil
    rwa [List.append_nil, List.append_nil] at hwidened
  · rintro rfl
    exact hform.lt_of_narrow

theorem varint_written {wide : Bool} (h : n < 2 ^ 32 ∨ wide = true ∧ n < 2 ^ 64) :
    Yields (takeVarint wide) (varintBytes n) 0 n :=
  .ofTakes fun k => ⟨k, Nat.le_refl k, (varintForm_varintBytes h).takes k⟩

/-- A codec that reads what it writes, and that reads nothing that could not be written. -/
structure Codec.Lawful (c : Codec α) : Prop where
  written : ∀ x, Yields c.decode (c.encode x) (c.cost x) x
  read : ∀ {bs k x rest k'}, c.decode ⟨bs, k⟩ = .ok (x, ⟨rest, k'⟩) →
    ∃ taken, bs = taken ++ rest ∧ Respells c.decode taken (c.encode x) k x k'

namespace Codec

variable {c : Codec α} {e : Codec β}

theorem lawful_fixed (n : Nat) : (fixed n).Lawful where
  written x := by
    have htake : Yields (take n) x.bytes 0 x := .ofTakes fun k => ⟨k, Nat.le_refl k, takes_take x k⟩
    exact htake.charged n
  read h := by
    obtain ⟨hle, h⟩ := charged_eq_ok h
    obtain ⟨rfl, rfl⟩ := take_eq_ok h
    exact ⟨_, rfl, (Respells.same (takes_take _ _)).charged hle⟩

theorem lawful_byte : byte.Lawful where
  written b := by
    have htake : Yields takeByte [b] 0 b := .ofTakes fun k => ⟨k, Nat.le_refl k, takes_takeByte b k⟩
    exact htake.charged 1
  read h := by
    obtain ⟨hle, h⟩ := charged_eq_ok h
    obtain ⟨rfl, rfl⟩ := takeByte_eq_ok h
    exact ⟨_, rfl, (Respells.same (takes_takeByte _ _)).charged hle⟩

theorem lawful_counter (kind : CounterKind) : (counter kind).Lawful where
  written v := by
    refine Yields.charged 8 ((varint_written (.inr ⟨rfl, v.number_lt⟩)).into ?_)
    rw [Counter.ofNatClamped_number]
  read h := by
    obtain ⟨hle, h⟩ := charged_eq_ok h
    obtain ⟨n, r, k₁, hread, h⟩ := sequence_eq_ok.mp h
    cases h
    obtain ⟨rfl, taken, rfl, hspell, hlt, _⟩ := varint_read hread
    have hnumber : (Counter.ofNatClamped n : Counter kind).number = n := by
      show min n (2 ^ 64 - 1) = n
      omega
    refine ⟨taken, rfl, ?_⟩
    show Respells _ taken (varintBytes (Counter.ofNatClamped n : Counter kind).number) _ _ _
    rw [hnumber]
    exact .charged (hspell.into rfl) hle

theorem lawful_u32 : u32.Lawful where
  written v := by
    refine Yields.charged 4 ((varint_written (.inl v.toNat_lt)).into ?_)
    rw [UInt32.ofNat_toNat]
  read h := by
    obtain ⟨hle, h⟩ := charged_eq_ok h
    obtain ⟨n, r, k₁, hread, h⟩ := sequence_eq_ok.mp h
    cases h
    obtain ⟨rfl, taken, rfl, hspell, _, hlt⟩ := varint_read hread
    refine ⟨taken, rfl, ?_⟩
    show Respells _ taken (varintBytes (UInt32.ofNat n).toNat) _ _ _
    rw [UInt32.toNat_ofNat_of_lt' (hlt rfl)]
    exact .charged (hspell.into rfl) hle

/-- Types whose values are in bijection. -/
theorem Lawful.via (hc : c.Lawful) {wrap : α → β} {unwrap : β → α} (hwrap : ∀ y, wrap (unwrap y) = y)
    (hunwrap : ∀ x, unwrap (wrap x) = x) : (c.via wrap unwrap).Lawful where
  written y := by
    refine (hc.written (unwrap y)).into ?_
    rw [hwrap]
  read h := by
    obtain ⟨x, r, k₁, hread, h⟩ := sequence_eq_ok.mp h
    cases h
    obtain ⟨taken, rfl, hspell⟩ := hc.read hread
    refine ⟨taken, rfl, ?_⟩
    show Respells _ taken (c.encode (unwrap (wrap x))) _ _ _
    rw [hunwrap]
    exact hspell.into rfl

theorem lawful_counterBytes (kind : CounterKind) : (counterBytes kind).Lawful :=
  (lawful_fixed 8).via Counter.ofBytes_toBytes Counter.toBytes_ofBytes

theorem Lawful.pair (hc : c.Lawful) (he : e.Lawful) : (c.pair e).Lawful where
  written x := (hc.written x.1).bind ((he.written x.2).into rfl)
  read h := by
    obtain ⟨x, r, k₁, hx, h⟩ := sequence_eq_ok.mp h
    obtain ⟨y, r', k₂, hy, h⟩ := sequence_eq_ok.mp h
    cases h
    obtain ⟨p, rfl, hspell⟩ := hc.read hx
    obtain ⟨q, rfl, hspell'⟩ := he.read hy
    exact ⟨p ++ q, (List.append_assoc p q _).symm, hspell.bind (hspell'.into rfl)⟩

theorem lawful_bool : bool.Lawful where
  written b := by
    cases b with
    | false => exact (lawful_byte.written 0).into rfl
    | true => exact (lawful_byte.written 1).into rfl
  read h := by
    obtain ⟨b, r, k₁, hb, hvalue⟩ := sequence_eq_ok.mp h
    obtain ⟨taken, rfl, hspell⟩ := lawful_byte.read hb
    split at hvalue
    · cases hvalue
      exact ⟨taken, rfl, hspell.into rfl⟩
    · cases hvalue
      exact ⟨taken, rfl, hspell.into rfl⟩
    · cases hvalue

theorem Lawful.option (hc : c.Lawful) : c.option.Lawful where
  written x := by
    cases x with
    | none => exact (lawful_byte.written 0).into rfl
    | some x => exact (lawful_byte.written 1).bind ((hc.written x).into rfl)
  read h := by
    obtain ⟨b, r, k₁, hb, hvalue⟩ := sequence_eq_ok.mp h
    obtain ⟨p, rfl, hspell⟩ := lawful_byte.read hb
    split at hvalue
    · cases hvalue
      exact ⟨p, rfl, hspell.into rfl⟩
    · obtain ⟨x, r', k₂, hx, hvalue⟩ := sequence_eq_ok.mp hvalue
      cases hvalue
      obtain ⟨q, rfl, hspell'⟩ := hc.read hx
      exact ⟨p ++ q, (List.append_assoc p q _).symm, hspell.bind (hspell'.into rfl)⟩
    · cases hvalue

theorem length_written (k : Nat) : Yields takeLength (lengthBytes k) 8 (min k (2 ^ 64 - 1)) :=
  ((lawful_counter .serial).written (.ofNatClamped k)).into rfl

theorem length_read {k' : Nat} (h : takeLength ⟨bs, k⟩ = .ok (n, ⟨rest, k'⟩)) :
    n < 2 ^ 64 ∧ ∃ taken, bs = taken ++ rest ∧ Respells takeLength taken (lengthBytes n) k n k' := by
  obtain ⟨s, r, k₁, hs, h⟩ := sequence_eq_ok.mp h
  cases h
  obtain ⟨taken, rfl, hspell⟩ := (lawful_counter .serial).read hs
  refine ⟨s.number_lt, taken, rfl, ?_⟩
  rw [lengthBytes, Counter.ofNatClamped_number]
  exact hspell.into rfl

/-- A string too long for its length to be told is too long to be read. -/
theorem lawful_bytes : bytes.Lawful where
  written bs := by
    refine (length_written bs.length).bind ?_
    by_cases h : bs.length < 2 ^ 64
    · rw [Nat.min_eq_left (by omega)]
      have htake : Yields (take bs.length) bs 0 ⟨bs, rfl⟩ :=
        .ofTakes fun k => ⟨k, Nat.le_refl k, takes_take ⟨bs, rfl⟩ k⟩
      refine Yields.charged bs.length (htake.into ?_)
      rfl
    · -- the greatest length is told instead, which is over the limit
      exact yields_charge_over (Nat.lt_min.mpr ⟨by unfold limit; omega, by decide⟩) (Nat.min_le_left _ _)
  read h := by
    obtain ⟨n, r, k₁, hlength, hbody⟩ := sequence_eq_ok.mp h
    obtain ⟨hle, hbody⟩ := charged_eq_ok hbody
    obtain ⟨⟨xs, rfl⟩, r', k₂, htake, hvalue⟩ := sequence_eq_ok.mp hbody
    cases hvalue
    obtain ⟨_, p, rfl, hspell⟩ := length_read hlength
    obtain ⟨rfl, rfl⟩ := take_eq_ok htake
    refine ⟨p ++ xs, (List.append_assoc p xs _).symm, hspell.bind (.charged ?_ hle)⟩
    exact (Respells.same (takes_take ⟨xs, rfl⟩ _)).into rfl

section Many

variable {size : Nat}

theorem many_written (hc : c.Lawful) (xs : List α) :
    Yields (decodeMany size c xs.length) (xs.flatMap c.encode) ((xs.map c.cost).foldr (· + ·) 0) xs := by
  induction xs with
  | nil => exact .ofTakes fun k => ⟨k, Nat.le_refl k, .pure [] k⟩
  | cons x xs ih =>
      -- what is given back before an element is not taken off the price
      have h : Yields (decodeMany size c (xs.length + 1)) ([] ++ (c.encode x ++ xs.flatMap c.encode))
          (0 + (c.cost x + (xs.map c.cost).foldr (· + ·) 0)) (x :: xs) :=
        (yields_refund size).bind (.bind (hc.written x) (ih.into rfl))
      rwa [Nat.zero_add] at h

theorem many_read (hc : c.Lawful) {k k' : Nat} {xs : List α}
    (h : decodeMany size c n ⟨bs, k⟩ = .ok (xs, ⟨rest, k'⟩)) :
    xs.length = n ∧ ∃ taken, bs = taken ++ rest ∧
      Respells (decodeMany size c n) taken (xs.flatMap c.encode) k xs k' := by
  induction n generalizing bs k xs with
  | zero =>
      cases h
      exact ⟨rfl, [], rfl, .same (.pure [] _)⟩
  | succ n ih =>
      obtain ⟨u, r, k₁, hrefund, hbody⟩ := sequence_eq_ok.mp h
      cases hrefund
      obtain ⟨x, r₁, k₂, hx, hlater⟩ := sequence_eq_ok.mp hbody
      obtain ⟨xs, r₂, k₃, hxs, hvalue⟩ := sequence_eq_ok.mp hlater
      cases hvalue
      obtain ⟨p, rfl, hspell⟩ := hc.read hx
      obtain ⟨rfl, q, rfl, hspell'⟩ := ih hxs
      refine ⟨rfl, p ++ q, (List.append_assoc p q _).symm, ?_⟩
      exact (Respells.same (takes_refund size k)).bind (.bind hspell (hspell'.into rfl))

/-- A list too long for its length to be told is too long to be read. -/
theorem Lawful.list (hc : c.Lawful) (hsize : 0 < size) : (list size c).Lawful where
  written xs := by
    show Yields _ _ (8 + xs.length * size + (xs.map c.cost).foldr (· + ·) 0) xs
    rw [Nat.add_assoc]
    refine (length_written xs.length).bind ?_
    by_cases h : xs.length < 2 ^ 64
    · rw [Nat.min_eq_left (by omega)]
      exact (many_written hc xs).charged (xs.length * size)
    · -- what is told is the greatest length, and room for so many elements is over the limit
      have hcount : 2 ^ 64 - 1 ≤ xs.length := by omega
      rw [Nat.min_eq_right hcount]
      refine yields_charge_over ?_ (Nat.le_add_right_of_le (Nat.mul_le_mul_right size hcount))
      exact Nat.lt_of_lt_of_le (by decide) (Nat.le_mul_of_pos_right _ hsize)
  read h := by
    obtain ⟨n, r, k₁, hlength, hbody⟩ := sequence_eq_ok.mp h
    obtain ⟨hle, hbody⟩ := charged_eq_ok hbody
    obtain ⟨_, p, rfl, hspell⟩ := length_read hlength
    obtain ⟨rfl, q, rfl, hspell'⟩ := many_read hc hbody
    exact ⟨p ++ q, (List.append_assoc p q _).symm, hspell.bind (.charged hspell' hle)⟩

end Many

section Whole

theorem decodeWhole_eq_ok : c.decodeWhole bs = .ok x ↔ ∃ k, c.decode ⟨bs, 0⟩ = .ok (x, ⟨[], k⟩) := by
  unfold decodeWhole
  rw [bind_eq_ok]
  constructor
  · rintro ⟨⟨y, r, k⟩, hdecode, hwhole⟩
    cases r with
    | nil =>
        cases hwhole
        exact ⟨k, hdecode⟩
    | cons b r => cases hwhole
  · rintro ⟨k, hdecode⟩
    exact ⟨(x, ⟨[], k⟩), hdecode, rfl⟩

theorem decodeWhole_of_error {e : WireError} (h : c.decode ⟨bs, 0⟩ = .error e) : c.decodeWhole bs = .error e := by
  unfold decodeWhole
  rw [h]
  rfl

theorem decodeWhole_of_takes (h : Takes c.decode bs 0 x k) : c.decodeWhole bs = .ok x := by
  have hread := h.reads []
  rw [List.append_nil] at hread
  exact decodeWhole_eq_ok.mpr ⟨k, hread⟩

theorem decodeWhole_cut {part : List UInt8} (h : Takes c.decode bs 0 x k) (hpart : part <+: bs) (hne : part ≠ bs) :
    c.decodeWhole part = .error .unexpectedEnd := by
  obtain ⟨missing, rfl⟩ := hpart
  have hmissing : missing ≠ [] := by
    rintro rfl
    exact hne (List.append_nil part).symm
  exact decodeWhole_of_error (h.waits part missing rfl hmissing)

theorem decodeWhole_extended (h : Takes c.decode bs 0 x k) (hrest : rest ≠ []) :
    c.decodeWhole (bs ++ rest) = .error .leftoverBytes := by
  obtain ⟨b, rest, rfl⟩ := List.exists_cons_of_ne_nil hrest
  unfold decodeWhole
  rw [h.reads]
  rfl

namespace Lawful

theorem decodeWhole_encode (hc : c.Lawful) (x : α) :
    c.decodeWhole (c.encode x) = .ok x ∨
      limit < c.cost x ∧ c.decodeWhole (c.encode x) = .error .limitExceeded := by
  have hwritten := hc.written x 0 []
  rw [List.append_nil, Nat.zero_add] at hwritten
  rcases hwritten with ⟨k, _, hread⟩ | ⟨hover, hstop⟩
  · exact .inl (decodeWhole_eq_ok.mpr ⟨k, hread⟩)
  · exact .inr ⟨hover, decodeWhole_of_error hstop⟩

theorem respells (hc : c.Lawful) (h : c.decodeWhole bs = .ok x) :
    ∃ k, Respells c.decode bs (c.encode x) 0 x k := by
  obtain ⟨k, hdecode⟩ := decodeWhole_eq_ok.mp h
  obtain ⟨taken, rfl, hspell⟩ := hc.read hdecode
  rw [List.append_nil]
  exact ⟨k, hspell⟩

/-- A value that can be read has a written form of its own. -/
theorem eq_of_encode_eq (hc : c.Lawful) {y : α} (h : c.decodeWhole (c.encode x) = .ok x)
    (heq : c.encode y = c.encode x) : y = x := by
  rw [← heq] at h
  rcases hc.decodeWhole_encode y with hread | ⟨_, hstop⟩
  · exact Except.ok.inj (hread.symm.trans h)
  · cases hstop.symm.trans h

end Lawful

end Whole

end Codec

end QuorumChain.Wire
