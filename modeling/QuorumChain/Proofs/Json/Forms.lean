import QuorumChain.Json.Forms
import QuorumChain.Proofs.Bytes.Hex
import QuorumChain.Proofs.Json.Printed

/-! The JSON forms give back every value from its text. A form is put together from others, and with it what
is known of it: which values it prints as legible JSON that it reads as the same value. -/

namespace QuorumChain

namespace Json

/-- A character that stands for itself in every text. -/
def isOrdinary (c : Char) : Bool := 0x20 ≤ c.toNat && c ≠ '"' && c ≠ '\\'

section Texts

variable {cs : List Char}

theorem legible_ofChars (h : ∀ c ∈ cs, isOrdinary c = true) : ∀ p ∈ cs.map Piece.plain, p.Legible := by
  intro p hp
  obtain ⟨c, hc, rfl⟩ := List.mem_map.mp hp
  have hordinary := h c hc
  simp only [isOrdinary, Bool.and_eq_true, decide_eq_true_eq] at hordinary
  exact ⟨hordinary.1.2, hordinary.2⟩

theorem codePoints_ofChars (cs : List Char) : codePoints (cs.map .plain) = cs.map Char.toNat := by
  induction cs with
  | nil => rfl
  | cons c cs ih => rw [List.map_cons, codePoints, ih, List.map_cons]

theorem charOf?_toNat (c : Char) : charOf? c.toNat = some c := by
  have hvalid : c.toNat.isValidChar := c.valid
  rw [charOf?, dif_pos hvalid]
  rfl

/-- What is written item by item is read item by item. -/
theorem mapM_map {α β : Type} {f : α → β} {g : β → Option α} {xs : List α} (h : ∀ x ∈ xs, g (f x) = some x) :
    (xs.map f).mapM g = some xs := by
  induction xs with
  | nil => rfl
  | cons x xs ih =>
      obtain ⟨hx, hxs⟩ := List.forall_mem_cons.mp h
      rw [List.map_cons, List.mapM_cons, hx, ih hxs]
      rfl

theorem properText?_ofChars (h : ∀ c ∈ cs, isOrdinary c = true) : properText? (cs.map .plain) = some cs := by
  have hcontrol : hasNoControl (cs.map .plain) = true := by
    refine List.all_eq_true.mpr fun p hp => ?_
    obtain ⟨c, hc, rfl⟩ := List.mem_map.mp hp
    have hordinary := h c hc
    simp only [isOrdinary, Bool.and_eq_true] at hordinary
    exact hordinary.1.1
  rw [properText?, if_pos hcontrol, codePoints_ofChars]
  exact mapM_map fun c _ => charOf?_toNat c

end Texts

end Json

open Json

namespace JsonForm

variable {α β : Type} {f : JsonForm α} {x : α}

/-- What the form prints for the value can be read as JSON, and is read as the value. -/
structure Faithful (f : JsonForm α) (x : α) : Prop where
  legible : (f.toJson x).Legible
  ofJson?_toJson : f.ofJson? (f.toJson x) = some x

theorem Faithful.parse?_render (h : f.Faithful x) : f.parse? (f.render x) = some x := by
  rw [parse?, render, Json.parse_render h.legible]
  exact h.ofJson?_toJson

theorem Faithful.via {wrap? : α → Option β} {unwrap : β → α} {y : β} (h : f.Faithful (unwrap y))
    (hwrap : wrap? (unwrap y) = some y) : (f.via wrap? unwrap).Faithful y where
  legible := h.legible
  ofJson?_toJson := by
    show (f.ofJson? (f.toJson (unwrap y))).bind wrap? = some y
    rw [h.ofJson?_toJson]
    exact hwrap

theorem faithful_natural (v : Nat) : natural.Faithful v := ⟨.natural v, rfl⟩

theorem faithful_boolean (b : Bool) : boolean.Faithful b := ⟨.bool b, rfl⟩

theorem faithful_characters {cs : List Char} (h : ∀ c ∈ cs, isOrdinary c = true) : characters.Faithful cs :=
  ⟨.text (legible_ofChars h), properText?_ofChars h⟩

theorem faithful_counter {kind : CounterKind} (c : Counter kind) : (counter kind).Faithful c :=
  (faithful_natural c.number).via (dif_pos c.number_lt)

theorem faithful_word32 (v : UInt32) : word32.Faithful v := by
  refine (faithful_natural v.toNat).via ?_
  rw [if_pos v.toNat_lt, UInt32.ofNat_toNat]

theorem faithful_word64 (v : UInt64) : word64.Faithful v := by
  refine (faithful_natural v.toNat).via ?_
  rw [if_pos v.toNat_lt, UInt64.ofNat_toNat]

theorem faithful_byte (v : UInt8) : byte.Faithful v := by
  refine (faithful_natural v.toNat).via ?_
  rw [if_pos v.toNat_lt, UInt8.ofNat_toNat]

theorem faithful_fixedBytes {n : Nat} (x : FixedBytes n) : (fixedBytes n).Faithful x := by
  refine (faithful_characters ?_).via ?_
  · exact Hex.forall_mem_encodeChars (by decide)
  · show (FixedBytes.ofHex n x.toHex).toOption = some x
    rw [FixedBytes.ofHex_toHex]
    rfl

theorem ofJson?_orNull {j : Json} (h : j ≠ .null) : f.orNull.ofJson? j = (f.ofJson? j).map some := by
  cases j with
  | null => exact absurd rfl h
  | _ => rfl

theorem Faithful.orNull (h : f.Faithful x) (hnull : f.toJson x ≠ .null) : f.orNull.Faithful (some x) where
  legible := h.legible
  ofJson?_toJson := by
    show f.orNull.ofJson? (f.toJson x) = some (some x)
    rw [ofJson?_orNull hnull, h.ofJson?_toJson]
    rfl

theorem faithful_null (f : JsonForm α) : f.orNull.Faithful none := ⟨.null, rfl⟩

theorem faithful_list {xs : List α} (h : ∀ x ∈ xs, f.Faithful x) : (list f).Faithful xs where
  legible := by
    refine .array fun j hj => ?_
    obtain ⟨x, hx, rfl⟩ := List.mem_map.mp hj
    exact (h x hx).legible
  ofJson?_toJson := mapM_map fun x hx => (h x hx).ofJson?_toJson

theorem faithful_bytes (bs : List UInt8) : bytes.Faithful bs :=
  ⟨(faithful_list fun b _ => faithful_byte b).legible, (faithful_list fun b _ => faithful_byte b).ofJson?_toJson⟩

end JsonForm

/-- A field of a record: its name, the form of its values, and the value it has. -/
structure JsonField where
  name : String
  {type : Type}
  form : JsonForm type
  value : type

/-- The field as a member of an object. -/
def JsonField.member (F : JsonField) : String × Json := (F.name, F.form.toJson F.value)

/-- Names that differ and are made of ordinary characters. -/
def areFieldNames (names : List String) : Bool :=
  decide names.Nodup && names.all fun name => name.toList.all isOrdinary

/-- Fields that can be told apart, with values that can be read. -/
structure AreFields (fields : List JsonField) : Prop where
  names : areFieldNames (fields.map JsonField.name) = true
  faithful : ∀ F ∈ fields, F.form.Faithful F.value

namespace FieldValues

variable {members : List (String × Json)} {name : String} {j : Json}

/-- The values of an object that has just these members. -/
def ofRecord (members : List (String × Json)) : FieldValues :=
  ⟨members.map fun m => (m.1.toList, m.2)⟩

theorem ofMembers_record {names : List (List Char)} (hnodup : (members.map Prod.fst).Nodup)
    (hordinary : ∀ m ∈ members, ∀ c ∈ m.1.toList, isOrdinary c = true)
    (hnames : ∀ m ∈ members, m.1.toList ∈ names) :
    ofMembers names (members.map fun m => (m.1.toList.map .plain, m.2)) = some (ofRecord members).values := by
  induction members with
  | nil => rfl
  | cons m members ih =>
      obtain ⟨name, j⟩ := m
      obtain ⟨hnew, hnodup⟩ := List.nodup_cons.mp hnodup
      obtain ⟨(hname : ∀ c ∈ name.toList, _), hordinary⟩ := List.forall_mem_cons.mp hordinary
      obtain ⟨(hmem : name.toList ∈ names), hnames⟩ := List.forall_mem_cons.mp hnames
      have hany : ((ofRecord members).values.any fun v => v.1 = name.toList) = false := by
        rw [List.any_eq_false]
        intro v hv
        obtain ⟨m, hm, rfl⟩ := List.mem_map.mp hv
        rw [decide_eq_true_eq, String.toList_inj]
        exact fun heq => hnew (List.mem_map.mpr ⟨m, hm, heq⟩)
      rw [List.map_cons, ofMembers, properText?_ofChars hname]
      show (ofMembers names _).bind _ = _
      rw [ih hnodup hordinary hnames]
      show (if name.toList ∈ names then if (ofRecord members).values.any (fun v => v.1 = name.toList) then none
        else some ((name.toList, j) :: (ofRecord members).values) else _) = _
      rw [if_pos hmem, hany]
      rfl

theorem get?_cons_self (name : String) (j : Json) (members : List (String × Json)) :
    (ofRecord ((name, j) :: members)).get? name = some j := by
  simp [get?, ofRecord]

theorem get?_cons_of_ne {other : String} (h : other ≠ name) (j : Json) (members : List (String × Json)) :
    (ofRecord ((other, j) :: members)).get? name = (ofRecord members).get? name := by
  simp [get?, ofRecord, String.toList_inj, h]

theorem get?_of_mem (hnodup : (members.map Prod.fst).Nodup) (h : (name, j) ∈ members) :
    (ofRecord members).get? name = some j := by
  induction members with
  | nil => cases h
  | cons m members ih =>
      obtain ⟨hnew, hnodup⟩ := List.nodup_cons.mp hnodup
      rcases List.mem_cons.mp h with rfl | hmem
      · exact get?_cons_self name j members
      · rw [get?_cons_of_ne fun heq => hnew (List.mem_map.mpr ⟨_, hmem, heq.symm⟩)]
        exact ih hnodup hmem

end FieldValues

namespace AreFields

variable {α : Type} {fields : List JsonField} {f : JsonForm α} {x : α} {name : String}

theorem nodup (h : AreFields fields) : ((fields.map JsonField.member).map Prod.fst).Nodup := by
  rw [List.map_map]
  exact of_decide_eq_true ((Bool.and_eq_true _ _).mp h.names).1

theorem ordinary (h : AreFields fields) :
    ∀ m ∈ fields.map JsonField.member, ∀ c ∈ m.1.toList, isOrdinary c = true := by
  intro m hm
  obtain ⟨F, hF, rfl⟩ := List.mem_map.mp hm
  have hall := List.all_eq_true.mp ((Bool.and_eq_true _ _).mp h.names).2 F.name (List.mem_map_of_mem hF)
  exact List.all_eq_true.mp hall

theorem legible (h : AreFields fields) : (Json.record (fields.map JsonField.member)).Legible := by
  refine .object (fun m hm => ?_) (fun m hm => ?_)
  · obtain ⟨member, hmember, rfl⟩ := List.mem_map.mp hm
    exact legible_ofChars (h.ordinary member hmember)
  · obtain ⟨member, hmember, rfl⟩ := List.mem_map.mp hm
    obtain ⟨F, hF, rfl⟩ := List.mem_map.mp hmember
    exact (h.faithful F hF).legible

/-- What is read of the record. -/
def values (fields : List JsonField) : FieldValues := .ofRecord (fields.map JsonField.member)

theorem ofJson?_record (h : AreFields fields) (complete : Bool) :
    FieldValues.ofJson? (fields.map JsonField.name) complete (.record (fields.map JsonField.member)) =
      some (values fields) := by
  refine congrArg (Option.map FieldValues.mk) (FieldValues.ofMembers_record h.nodup h.ordinary fun m hm => ?_)
  obtain ⟨F, hF, rfl⟩ := List.mem_map.mp hm
  exact List.mem_map_of_mem (List.mem_map_of_mem hF)

theorem get?_values (h : AreFields fields) (hF : ⟨name, f, x⟩ ∈ fields) :
    (values fields).get? name = some (f.toJson x) :=
  FieldValues.get?_of_mem h.nodup (List.mem_map_of_mem (f := JsonField.member) hF)

theorem required (h : AreFields fields) (i : Nat) (hF : fields[i]? = some ⟨name, f, x⟩) :
    (values fields).required f name = some x := by
  have hmem := List.mem_of_getElem? hF
  rw [FieldValues.required, h.get?_values hmem]
  exact (h.faithful _ hmem).ofJson?_toJson

theorem orNull {x : Option α} (h : AreFields fields) (i : Nat) (hF : fields[i]? = some ⟨name, f.orNull, x⟩) :
    (values fields).orNull f name = some x := by
  have hmem := List.mem_of_getElem? hF
  rw [FieldValues.orNull, h.get?_values hmem]
  exact (h.faithful _ hmem).ofJson?_toJson

theorem orElse (h : AreFields fields) (i : Nat) (hF : fields[i]? = some ⟨name, f, x⟩) (default : α) :
    (values fields).orElse f name default = some x := by
  have hmem := List.mem_of_getElem? hF
  rw [FieldValues.orElse, h.get?_values hmem]
  exact (h.faithful _ hmem).ofJson?_toJson

end AreFields

open JsonForm

theorem BlockId.faithful_json (id : BlockId) : BlockId.json.Faithful id := (faithful_fixedBytes id.raw).via rfl

theorem PayloadHash.faithful_json (hash : PayloadHash) : PayloadHash.json.Faithful hash :=
  (faithful_fixedBytes hash.raw).via rfl

theorem PublicKey.faithful_json (key : PublicKey) : PublicKey.json.Faithful key := (faithful_fixedBytes key.raw).via rfl

theorem Signature.faithful_json (s : Signature) : Signature.json.Faithful s := (faithful_fixedBytes s.raw).via rfl

theorem PeerIndex.faithful_json (i : PeerIndex) : PeerIndex.json.Faithful i :=
  (faithful_natural i.number).via (dif_pos i.number_lt)

theorem Transaction.faithful_json (tx : Transaction) : Transaction.json.Faithful tx := (faithful_bytes tx.bytes).via rfl

theorem BlockId.faithful_orNull (id : Option BlockId) : BlockId.json.orNull.Faithful id := by
  cases id with
  | none => exact faithful_null BlockId.json
  | some id => exact id.faithful_json.orNull nofun

theorem Phase.faithful_json (p : Phase) : Phase.json.Faithful p := by
  have hall : p.jsonName.toList.all isOrdinary = true := by cases p <;> decide
  have hname := List.all_eq_true.mp hall
  refine ⟨.text (legible_ofChars hname), ?_⟩
  show (properText? (p.jsonName.toList.map .plain)).bind ofJsonName? = some p
  rw [properText?_ofChars hname]
  cases p <;> decide

section Records

theorem CommitSignature.faithful_json (s : CommitSignature) : CommitSignature.json.Faithful s := by
  have h : AreFields [⟨"signer", PublicKey.json, s.signer⟩, ⟨"sig", Signature.json, s.signature⟩] := by
    refine ⟨show areFieldNames ["signer", "sig"] = true by decide, ?_⟩
    simp only [List.forall_mem_cons]
    exact ⟨s.signer.faithful_json, s.signature.faithful_json, nofun⟩
  refine ⟨h.legible, ?_⟩
  dsimp only [CommitSignature.json]
  refine Option.bind_eq_some_iff.mpr ⟨_, h.ofJson?_record true, ?_⟩
  refine Option.bind_eq_some_iff.mpr ⟨_, h.required 0 rfl, ?_⟩
  refine Option.bind_eq_some_iff.mpr ⟨_, h.required 1 rfl, ?_⟩
  rfl

theorem Header.faithful_json (x : Header) : Header.json.Faithful x := by
  have h : AreFields [⟨"height", .counter .height, x.height⟩, ⟨"prev_block_rid", BlockId.json.orNull, x.parent⟩,
      ⟨"timestamp", .counter .timestamp, x.timestamp⟩, ⟨"payload_len", .word32, x.payloadLength⟩,
      ⟨"payload_hash", PayloadHash.json, x.payloadHash⟩] := by
    refine ⟨show areFieldNames ["height", "prev_block_rid", "timestamp", "payload_len", "payload_hash"] = true
      by decide, ?_⟩
    simp only [List.forall_mem_cons]
    exact ⟨faithful_counter x.height, BlockId.faithful_orNull x.parent, faithful_counter x.timestamp,
      faithful_word32 x.payloadLength, x.payloadHash.faithful_json, nofun⟩
  refine ⟨h.legible, ?_⟩
  dsimp only [Header.json]
  refine Option.bind_eq_some_iff.mpr ⟨_, h.ofJson?_record true, ?_⟩
  refine Option.bind_eq_some_iff.mpr ⟨_, h.required 0 rfl, ?_⟩
  refine Option.bind_eq_some_iff.mpr ⟨_, h.orNull 1 rfl, ?_⟩
  refine Option.bind_eq_some_iff.mpr ⟨_, h.required 2 rfl, ?_⟩
  refine Option.bind_eq_some_iff.mpr ⟨_, h.required 3 rfl, ?_⟩
  refine Option.bind_eq_some_iff.mpr ⟨_, h.required 4 rfl, ?_⟩
  rfl

theorem Block.faithful_json (b : Block) : Block.json.Faithful b := by
  have h : AreFields [⟨"header", Header.json, b.header⟩, ⟨"transactions", .list Transaction.json, b.transactions⟩] := by
    refine ⟨show areFieldNames ["header", "transactions"] = true by decide, ?_⟩
    simp only [List.forall_mem_cons]
    exact ⟨b.header.faithful_json, faithful_list fun tx _ => tx.faithful_json, nofun⟩
  refine ⟨h.legible, ?_⟩
  dsimp only [Block.json]
  refine Option.bind_eq_some_iff.mpr ⟨_, h.ofJson?_record true, ?_⟩
  refine Option.bind_eq_some_iff.mpr ⟨_, h.required 0 rfl, ?_⟩
  refine Option.bind_eq_some_iff.mpr ⟨_, h.required 1 rfl, ?_⟩
  rfl

theorem Status.faithful_json (s : Status) : Status.json.Faithful s := by
  have h : AreFields [⟨"height", .counter .height, s.height⟩, ⟨"round", .counter .round, s.round⟩,
      ⟨"state", Phase.json, s.phase⟩, ⟨"block_rid", BlockId.json.orNull, s.block⟩,
      ⟨"revolting", .boolean, s.revolting⟩, ⟨"serial", .counter .serial, s.serial⟩] := by
    refine ⟨show areFieldNames ["height", "round", "state", "block_rid", "revolting", "serial"] = true
      by decide, ?_⟩
    simp only [List.forall_mem_cons]
    exact ⟨faithful_counter s.height, faithful_counter s.round, s.phase.faithful_json,
      BlockId.faithful_orNull s.block, faithful_boolean s.revolting, faithful_counter s.serial, nofun⟩
  refine ⟨h.legible, ?_⟩
  dsimp only [Status.json]
  refine Option.bind_eq_some_iff.mpr ⟨_, h.ofJson?_record true, ?_⟩
  refine Option.bind_eq_some_iff.mpr ⟨_, h.required 0 rfl, ?_⟩
  refine Option.bind_eq_some_iff.mpr ⟨_, h.required 1 rfl, ?_⟩
  refine Option.bind_eq_some_iff.mpr ⟨_, h.required 2 rfl, ?_⟩
  refine Option.bind_eq_some_iff.mpr ⟨_, h.orNull 3 rfl, ?_⟩
  refine Option.bind_eq_some_iff.mpr ⟨_, h.required 4 rfl, ?_⟩
  refine Option.bind_eq_some_iff.mpr ⟨_, h.required 5 rfl, ?_⟩
  rfl

end Records

section Settings

/-- A whole number of milliseconds, as many as 64 bits can tell. -/
def Duration.IsMillis (d : Duration) : Prop := ∃ ms < 2 ^ 64, d = .ofMillis ms

theorem Duration.isMillis_ofMillis {ms : Nat} (h : ms < 2 ^ 64) : (ofMillis ms).IsMillis := ⟨ms, h, rfl⟩

theorem faithful_duration {d : Duration} (h : d.IsMillis) : duration.Faithful d := by
  obtain ⟨ms, hms, rfl⟩ := h
  have hmillis : (Duration.ofMillis ms).toMillis = ms := Nat.mul_div_cancel ms (by decide)
  have hword : (UInt64.ofNat (min (Duration.ofMillis ms).toMillis (2 ^ 64 - 1))).toNat = ms := by
    rw [hmillis, UInt64.toNat_ofNat']
    omega
  refine (faithful_word64 _).via ?_
  rw [hword]

/-- Durations are read as whole milliseconds. -/
theorem isMillis_of_ofJson? {j : Json} {d : Duration} (h : duration.ofJson? j = some d) : d.IsMillis := by
  obtain ⟨v, _, hv⟩ := Option.bind_eq_some_iff.mp h
  cases hv
  exact Duration.isMillis_ofMillis v.toNat_lt

theorem FieldValues.isMillis_of_orElse {fields : FieldValues} {name : String} {default d : Duration}
    (hdefault : default.IsMillis) (h : fields.orElse .duration name default = some d) : d.IsMillis := by
  unfold FieldValues.orElse at h
  split at h
  next j _ => exact isMillis_of_ofJson? h
  next =>
    cases h
    exact hdefault

/-- All spans of time are whole milliseconds. -/
structure Config.IsMillis (c : Config) : Prop where
  tickInterval : c.tickInterval.IsMillis
  statusResendInterval : c.statusResendInterval.IsMillis
  revoltTimeout : c.revoltTimeout.IsMillis
  intentRetryTimeout : c.intentRetryTimeout.IsMillis
  dbStopTimeout : c.dbStopTimeout.IsMillis

theorem Config.faithful_json {c : Config} (hc : c.IsMillis) : Config.json.Faithful c := by
  have h : AreFields [⟨"tick-interval", .duration, c.tickInterval⟩,
      ⟨"status-resend-interval", .duration, c.statusResendInterval⟩, ⟨"revolt-timeout", .duration, c.revoltTimeout⟩,
      ⟨"intent-retry-timeout", .duration, c.intentRetryTimeout⟩,
      ⟨"recompute-max-iterations", .word64, c.recomputeMaxIterations⟩,
      ⟨"db-stop-timeout", .duration, c.dbStopTimeout⟩] := by
    refine ⟨show areFieldNames ["tick-interval", "status-resend-interval", "revolt-timeout", "intent-retry-timeout",
      "recompute-max-iterations", "db-stop-timeout"] = true by decide, ?_⟩
    simp only [List.forall_mem_cons]
    exact ⟨faithful_duration hc.tickInterval, faithful_duration hc.statusResendInterval,
      faithful_duration hc.revoltTimeout, faithful_duration hc.intentRetryTimeout,
      faithful_word64 c.recomputeMaxIterations, faithful_duration hc.dbStopTimeout, nofun⟩
  refine ⟨h.legible, ?_⟩
  dsimp only [Config.json]
  refine Option.bind_eq_some_iff.mpr ⟨_, h.ofJson?_record false, ?_⟩
  refine Option.bind_eq_some_iff.mpr ⟨_, h.orElse 0 rfl _, ?_⟩
  refine Option.bind_eq_some_iff.mpr ⟨_, h.orElse 1 rfl _, ?_⟩
  refine Option.bind_eq_some_iff.mpr ⟨_, h.orElse 2 rfl _, ?_⟩
  refine Option.bind_eq_some_iff.mpr ⟨_, h.orElse 3 rfl _, ?_⟩
  refine Option.bind_eq_some_iff.mpr ⟨_, h.orElse 4 rfl _, ?_⟩
  refine Option.bind_eq_some_iff.mpr ⟨_, h.orElse 5 rfl _, ?_⟩
  rfl

theorem Config.isMillis_of_ofJson? {j : Json} {c : Config} (h : Config.json.ofJson? j = some c) : c.IsMillis := by
  dsimp only [Config.json] at h
  obtain ⟨fields, _, h⟩ := Option.bind_eq_some_iff.mp h
  obtain ⟨tick, htick, h⟩ := Option.bind_eq_some_iff.mp h
  obtain ⟨resend, hresend, h⟩ := Option.bind_eq_some_iff.mp h
  obtain ⟨revolt, hrevolt, h⟩ := Option.bind_eq_some_iff.mp h
  obtain ⟨retry, hretry, h⟩ := Option.bind_eq_some_iff.mp h
  obtain ⟨_, _, h⟩ := Option.bind_eq_some_iff.mp h
  obtain ⟨stop, hstop, h⟩ := Option.bind_eq_some_iff.mp h
  cases h
  exact ⟨FieldValues.isMillis_of_orElse (Duration.isMillis_ofMillis (by decide)) htick,
    FieldValues.isMillis_of_orElse (Duration.isMillis_ofMillis (by decide)) hresend,
    FieldValues.isMillis_of_orElse (Duration.isMillis_ofMillis (by decide)) hrevolt,
    FieldValues.isMillis_of_orElse (Duration.isMillis_ofMillis (by decide)) hretry,
    FieldValues.isMillis_of_orElse (Duration.isMillis_ofMillis (by decide)) hstop⟩

/-- All spans of time are whole milliseconds. -/
structure PacingConfig.IsMillis (c : PacingConfig) : Prop where
  maxBlockTime : c.maxBlockTime.IsMillis
  maxTxDelay : c.maxTxDelay.IsMillis
  minInterBlockInterval : c.minInterBlockInterval.IsMillis

theorem PacingConfig.faithful_json {c : PacingConfig} (hc : c.IsMillis) : PacingConfig.json.Faithful c := by
  have h : AreFields [⟨"max-block-time", .duration, c.maxBlockTime⟩,
      ⟨"max-block-transactions", .word64, c.maxBlockTransactions⟩, ⟨"max-tx-delay", .duration, c.maxTxDelay⟩,
      ⟨"min-inter-block-interval", .duration, c.minInterBlockInterval⟩] := by
    refine ⟨show areFieldNames ["max-block-time", "max-block-transactions", "max-tx-delay",
      "min-inter-block-interval"] = true by decide, ?_⟩
    simp only [List.forall_mem_cons]
    exact ⟨faithful_duration hc.maxBlockTime, faithful_word64 c.maxBlockTransactions,
      faithful_duration hc.maxTxDelay, faithful_duration hc.minInterBlockInterval, nofun⟩
  refine ⟨h.legible, ?_⟩
  dsimp only [PacingConfig.json]
  refine Option.bind_eq_some_iff.mpr ⟨_, h.ofJson?_record false, ?_⟩
  refine Option.bind_eq_some_iff.mpr ⟨_, h.orElse 0 rfl _, ?_⟩
  refine Option.bind_eq_some_iff.mpr ⟨_, h.orElse 1 rfl _, ?_⟩
  refine Option.bind_eq_some_iff.mpr ⟨_, h.orElse 2 rfl _, ?_⟩
  refine Option.bind_eq_some_iff.mpr ⟨_, h.orElse 3 rfl _, ?_⟩
  rfl

theorem PacingConfig.isMillis_of_ofJson? {j : Json} {c : PacingConfig} (h : PacingConfig.json.ofJson? j = some c) :
    c.IsMillis := by
  dsimp only [PacingConfig.json] at h
  obtain ⟨fields, _, h⟩ := Option.bind_eq_some_iff.mp h
  obtain ⟨block, hblock, h⟩ := Option.bind_eq_some_iff.mp h
  obtain ⟨_, _, h⟩ := Option.bind_eq_some_iff.mp h
  obtain ⟨delay, hdelay, h⟩ := Option.bind_eq_some_iff.mp h
  obtain ⟨interval, hinterval, h⟩ := Option.bind_eq_some_iff.mp h
  cases h
  exact ⟨FieldValues.isMillis_of_orElse (Duration.isMillis_ofMillis (by decide)) hblock,
    FieldValues.isMillis_of_orElse (Duration.isMillis_ofMillis (by decide)) hdelay,
    FieldValues.isMillis_of_orElse (Duration.isMillis_ofMillis (by decide)) hinterval⟩

end Settings

/-- What has a JSON form. -/
inductive JsonType where
  | blockId
  | payloadHash
  | signature
  | publicKey
  | height
  | round
  | timestamp
  | peerIndex
  | phase
  | status
  | header
  | block
  | transaction
  | commitSignature
  | config
  | pacingConfig

namespace JsonType

abbrev Value : JsonType → Type
  | blockId => BlockId
  | payloadHash => PayloadHash
  | signature => Signature
  | publicKey => PublicKey
  | height => Height
  | round => Round
  | timestamp => Timestamp
  | peerIndex => PeerIndex
  | phase => Phase
  | status => Status
  | header => Header
  | block => Block
  | transaction => Transaction
  | commitSignature => CommitSignature
  | config => Config
  | pacingConfig => PacingConfig

def form : (t : JsonType) → JsonForm t.Value
  | blockId => BlockId.json
  | payloadHash => PayloadHash.json
  | signature => Signature.json
  | publicKey => PublicKey.json
  | height => .counter .height
  | round => .counter .round
  | timestamp => .counter .timestamp
  | peerIndex => PeerIndex.json
  | phase => Phase.json
  | status => Status.json
  | header => Header.json
  | block => Block.json
  | transaction => Transaction.json
  | commitSignature => CommitSignature.json
  | config => Config.json
  | pacingConfig => PacingConfig.json

/-- Settings are told in milliseconds; all else is told as it is. -/
def IsTold : (t : JsonType) → t.Value → Prop
  | config => Config.IsMillis
  | pacingConfig => PacingConfig.IsMillis
  | _ => fun _ => True

theorem faithful (t : JsonType) {x : t.Value} (h : t.IsTold x) : t.form.Faithful x := by
  cases t with
  | blockId => exact BlockId.faithful_json x
  | payloadHash => exact PayloadHash.faithful_json x
  | signature => exact Signature.faithful_json x
  | publicKey => exact PublicKey.faithful_json x
  | height => exact faithful_counter (x : Height)
  | round => exact faithful_counter (x : Round)
  | timestamp => exact faithful_counter (x : Timestamp)
  | peerIndex => exact PeerIndex.faithful_json x
  | phase => exact Phase.faithful_json x
  | status => exact Status.faithful_json x
  | header => exact Header.faithful_json x
  | block => exact Block.faithful_json x
  | transaction => exact Transaction.faithful_json x
  | commitSignature => exact CommitSignature.faithful_json x
  | config => exact Config.faithful_json h
  | pacingConfig => exact PacingConfig.faithful_json h

/-- What can be read can be told. -/
theorem isTold_of_parse? {t : JsonType} {x : t.Value} {text : String} (h : t.form.parse? text = some x) :
    t.IsTold x := by
  obtain ⟨j, _, hj⟩ := Option.bind_eq_some_iff.mp h
  cases t with
  | config => exact Config.isMillis_of_ofJson? hj
  | pacingConfig => exact PacingConfig.isMillis_of_ofJson? hj
  | _ => trivial

/-- **What is printed is read as what it was.** Of any text that is read as a value, the text printed for the
value is read as the same value, and printed the same. All values are so recovered, settings if their spans of
time are whole milliseconds. -/
theorem printed_reads_back (t : JsonType) (x : t.Value) :
    (∀ text, t.form.parse? text = some x →
      t.form.parse? (t.form.render x) = some x ∧
      (t.form.parse? (t.form.render x)).map t.form.render = some (t.form.render x)) ∧
    (t.IsTold x → t.form.parse? (t.form.render x) = some x) := by
  refine ⟨fun text h => ?_, fun h => (t.faithful h).parse?_render⟩
  have hread := (t.faithful (isTold_of_parse? h)).parse?_render
  rw [hread]
  exact ⟨rfl, rfl⟩

/-- Settings of which one is given and the others are left out. -/
theorem printed_reads_back_revolt_timeout :
    config.form.parse? "\x7b \"revolt-timeout\": 500 \x7d" = some ({ revoltTimeout := .ofMillis 500 } : Config) ∧
    config.IsTold ({ revoltTimeout := .ofMillis 500 } : Config) ∧
    config.form.parse? (config.form.render ({ revoltTimeout := .ofMillis 500 } : Config)) =
      some ({ revoltTimeout := .ofMillis 500 } : Config) ∧
    (config.form.parse? (config.form.render ({ revoltTimeout := .ofMillis 500 } : Config))).map config.form.render =
      some (config.form.render ({ revoltTimeout := .ofMillis 500 } : Config)) := by
  have hread : config.form.parse? "\x7b \"revolt-timeout\": 500 \x7d" =
      some ({ revoltTimeout := .ofMillis 500 } : Config) := by decide +kernel
  have htold := isTold_of_parse? hread
  obtain ⟨hparsed, hsettings⟩ := printed_reads_back config ({ revoltTimeout := .ofMillis 500 } : Config)
  exact ⟨hread, htold, hsettings htold, (hparsed _ hread).2⟩

end JsonType

end QuorumChain
