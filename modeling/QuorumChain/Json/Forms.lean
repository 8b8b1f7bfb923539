import QuorumChain.Bytes.Hex
import QuorumChain.Config
import QuorumChain.Json.Printer
import QuorumChain.Json.Reader
import QuorumChain.Peer
import QuorumChain.Status

/-!
The JSON forms of blocks, statuses and settings.

Identifiers and keys are hexadecimal texts, counters are numbers, transactions are lists of bytes.
A structure is an object; it is also read from the list of its fields in order.
-/

namespace QuorumChain

/-- A writer and a reader of the JSON form of a type. -/
structure JsonForm (α : Type) where
  toJson : α → Json
  ofJson? : Json → Option α

namespace JsonForm

open Json

variable {α β : Type}

def parse? (f : JsonForm α) (s : String) : Option α := (Json.parse s).bind f.ofJson?

def render (f : JsonForm α) (x : α) : String := (f.toJson x).render

/-- The form of a type whose values are some of those of another. -/
def via (f : JsonForm α) (wrap? : α → Option β) (unwrap : β → α) : JsonForm β where
  toJson y := f.toJson (unwrap y)
  ofJson? j := (f.ofJson? j).bind wrap?

def natural : JsonForm Nat where
  toJson := Json.natural
  ofJson?
    | .natural v => some v
    | _ => none

def boolean : JsonForm Bool where
  toJson := Json.bool
  ofJson?
    | .bool b => some b
    | _ => none

/-- Texts of proper Unicode. -/
def characters : JsonForm (List Char) where
  toJson := Json.ofChars
  ofJson?
    | .text pieces => properText? pieces
    | _ => none

def counter (kind : CounterKind) : JsonForm (Counter kind) := natural.via Counter.ofNat? Counter.number

def word32 : JsonForm UInt32 :=
  natural.via (fun v => if v < 2 ^ 32 then some (UInt32.ofNat v) else none) UInt32.toNat

def word64 : JsonForm UInt64 :=
  natural.via (fun v => if v < 2 ^ 64 then some (UInt64.ofNat v) else none) UInt64.toNat

def byte : JsonForm UInt8 :=
  natural.via (fun v => if v < 2 ^ 8 then some (UInt8.ofNat v) else none) UInt8.toNat

/-- Durations are numbers of milliseconds, as many as 64 bits can tell. -/
def duration : JsonForm Duration :=
  word64.via (fun v => some (.ofMillis v.toNat)) (fun d => UInt64.ofNat (min d.toMillis (2 ^ 64 - 1)))

/-- Fixed strings of bytes are hexadecimal texts. -/
def fixedBytes (n : Nat) : JsonForm (FixedBytes n) :=
  characters.via (fun cs => (FixedBytes.ofHex n (String.ofList cs)).toOption)
    (fun x => Hex.encodeChars x.bytes)

def orNull (f : JsonForm α) : JsonForm (Option α) where
  toJson
    | some x => f.toJson x
    | none => .null
  ofJson?
    | .null => some none
    | j => (f.ofJson? j).map some

def list (f : JsonForm α) : JsonForm (List α) where
  toJson xs := .array (xs.map f.toJson)
  ofJson?
    | .array items => items.mapM f.ofJson?
    | _ => none

/-- Bytes are a list of numbers, or what a text stands for. -/
def bytes : JsonForm (List UInt8) where
  toJson := (list byte).toJson
  ofJson?
    | .text pieces => some (textBytes pieces)
    | j => (list byte).ofJson? j

end JsonForm

/-- The values given to some named fields; a field may be left out. -/
structure FieldValues where
  values : List (List Char × Json)

namespace FieldValues

def get? (fields : FieldValues) (name : String) : Option Json :=
  (fields.values.find? fun (n, _) => n = name.toList).map (·.2)

/-- Sorts out the members of an object. A field may be given once, and what is no field is skipped. -/
def ofMembers (names : List (List Char)) :
    List (List Json.Piece × Json) → Option (List (List Char × Json))
  | [] => some []
  | (pieces, value) :: rest => do
    let name ← Json.properText? pieces
    let values ← ofMembers names rest
    if name ∈ names then
      if values.any fun (n, _) => n = name then none else some ((name, value) :: values)
    else if value.isSkippable then some values else none

/-- The fields of an object, or of a list of no more values than there are fields. With `complete`
a list has to give them all. -/
def ofJson? (names : List String) (complete : Bool) : Json → Option FieldValues
  | .object members => (ofMembers (names.map String.toList) members).map .mk
  | .array items =>
    if items.length = names.length ∨ (complete = false ∧ items.length < names.length) then
      some ⟨(names.map String.toList).zip items⟩
    else none
  | _ => none

/-- A field that has to be given. -/
def required {α : Type} (fields : FieldValues) (f : JsonForm α) (name : String) : Option α :=
  (fields.get? name).bind f.ofJson?

/-- A field that may be left out for null. -/
def orNull {α : Type} (fields : FieldValues) (f : JsonForm α) (name : String) : Option (Option α) :=
  match fields.get? name with
  | some j => f.orNull.ofJson? j
  | none => some none

/-- A field that may be left out for a given value. -/
def orElse {α : Type} (fields : FieldValues) (f : JsonForm α) (name : String) (value : α) : Option α :=
  match fields.get? name with
  | some j => f.ofJson? j
  | none => some value

end FieldValues

/-- An object of fields in order. -/
def Json.record (members : List (String × Json)) : Json :=
  .object (members.map fun (name, j) => (name.toList.map .plain, j))

def BlockId.json : JsonForm BlockId := (JsonForm.fixedBytes 32).via (some ∘ .mk) BlockId.raw

def PayloadHash.json : JsonForm PayloadHash := (JsonForm.fixedBytes 32).via (some ∘ .mk) PayloadHash.raw

def PublicKey.json : JsonForm PublicKey := (JsonForm.fixedBytes 32).via (some ∘ .mk) PublicKey.raw

def Signature.json : JsonForm Signature := (JsonForm.fixedBytes 64).via (some ∘ .mk) Signature.raw

def PeerIndex.json : JsonForm PeerIndex := JsonForm.natural.via PeerIndex.ofNat? PeerIndex.number

def Transaction.json : JsonForm Transaction := JsonForm.bytes.via (some ∘ .mk) Transaction.bytes

namespace Phase

def jsonName : Phase → String
  | waitBlock => "WaitBlock"
  | haveBlock => "HaveBlock"
  | prepared => "Prepared"

def ofJsonName? (name : List Char) : Option Phase :=
  [waitBlock, haveBlock, prepared].find? fun p => p.jsonName.toList = name

/-- A phase is its name, also as the name of a null. -/
def json : JsonForm Phase where
  toJson p := .ofString p.jsonName
  ofJson?
    | .text pieces => (Json.properText? pieces).bind ofJsonName?
    | .object [(pieces, .null)] => (Json.properText? pieces).bind ofJsonName?
    | _ => none

end Phase

def Status.json : JsonForm Status where
  toJson s := .record [
    ("height", (JsonForm.counter .height).toJson s.height),
    ("round", (JsonForm.counter .round).toJson s.round),
    ("state", Phase.json.toJson s.phase),
    ("block_rid", BlockId.json.orNull.toJson s.block),
    ("revolting", .bool s.revolting),
    ("serial", (JsonForm.counter .serial).toJson s.serial)]
  ofJson? j := do
    let fields ← FieldValues.ofJson?
      ["height", "round", "state", "block_rid", "revolting", "serial"] true j
    return {
      height := ← fields.required (.counter .height) "height"
      round := ← fields.required (.counter .round) "round"
      phase := ← fields.required Phase.json "state"
      block := ← fields.orNull BlockId.json "block_rid"
      revolting := ← fields.required .boolean "revolting"
      serial := ← fields.required (.counter .serial) "serial" }

def Header.json : JsonForm Header where
  toJson h := .record [
    ("height", (JsonForm.counter .height).toJson h.height),
    ("prev_block_rid", BlockId.json.orNull.toJson h.parent),
    ("timestamp", (JsonForm.counter .timestamp).toJson h.timestamp),
    ("payload_len", JsonForm.word32.toJson h.payloadLength),
    ("payload_hash", PayloadHash.json.toJson h.payloadHash)]
  ofJson? j := do
    let fields ← FieldValues.ofJson?
      ["height", "prev_block_rid", "timestamp", "payload_len", "payload_hash"] true j
    return {
      height := ← fields.required (.counter .height) "height"
      parent := ← fields.orNull BlockId.json "prev_block_rid"
      timestamp := ← fields.required (.counter .timestamp) "timestamp"
      payloadLength := ← fields.required .word32 "payload_len"
      payloadHash := ← fields.required PayloadHash.json "payload_hash" }

def Block.json : JsonForm Block where
  toJson b := .record [
    ("header", Header.json.toJson b.header),
    ("transactions", (JsonForm.list Transaction.json).toJson b.transactions)]
  ofJson? j := do
    let fields ← FieldValues.ofJson? ["header", "transactions"] true j
    return {
      header := ← fields.required Header.json "header"
      transactions := ← fields.required (.list Transaction.json) "transactions" }

def CommitSignature.json : JsonForm CommitSignature where
  toJson s := .record [
    ("signer", PublicKey.json.toJson s.signer),
    ("sig", Signature.json.toJson s.signature)]
  ofJson? j := do
    let fields ← FieldValues.ofJson? ["signer", "sig"] true j
    return {
      signer := ← fields.required PublicKey.json "signer"
      signature := ← fields.required Signature.json "sig" }

def Config.json : JsonForm Config where
  toJson c := .record [
    ("tick-interval", JsonForm.duration.toJson c.tickInterval),
    ("status-resend-interval", JsonForm.duration.toJson c.statusResendInterval),
    ("revolt-timeout", JsonForm.duration.toJson c.revoltTimeout),
    ("intent-retry-timeout", JsonForm.duration.toJson c.intentRetryTimeout),
    ("recompute-max-iterations", JsonForm.word64.toJson c.recomputeMaxIterations),
    ("db-stop-timeout", JsonForm.duration.toJson c.dbStopTimeout)]
  ofJson? j := do
    let d : Config := {}
    let fields ← FieldValues.ofJson?
      ["tick-interval", "status-resend-interval", "revolt-timeout", "intent-retry-timeout",
        "recompute-max-iterations", "db-stop-timeout"] false j
    return {
      tickInterval := ← fields.orElse .duration "tick-interval" d.tickInterval
      statusResendInterval := ← fields.orElse .duration "status-resend-interval" d.statusResendInterval
      revoltTimeout := ← fields.orElse .duration "revolt-timeout" d.revoltTimeout
      intentRetryTimeout := ← fields.orElse .duration "intent-retry-timeout" d.intentRetryTimeout
      recomputeMaxIterations := ← fields.orElse .word64 "recompute-max-iterations" d.recomputeMaxIterations
      dbStopTimeout := ← fields.orElse .duration "db-stop-timeout" d.dbStopTimeout }

def PacingConfig.json : JsonForm PacingConfig where
  toJson c := .record [
    ("max-block-time", JsonForm.duration.toJson c.maxBlockTime),
    ("max-block-transactions", JsonForm.word64.toJson c.maxBlockTransactions),
    ("max-tx-delay", JsonForm.duration.toJson c.maxTxDelay),
    ("min-inter-block-interval", JsonForm.duration.toJson c.minInterBlockInterval)]
  ofJson? j := do
    let d : PacingConfig := {}
    let fields ← FieldValues.ofJson?
      ["max-block-time", "max-block-transactions", "max-tx-delay", "min-inter-block-interval"] false j
    return {
      maxBlockTime := ← fields.orElse .duration "max-block-time" d.maxBlockTime
      maxBlockTransactions := ← fields.orElse .word64 "max-block-transactions" d.maxBlockTransactions
      maxTxDelay := ← fields.orElse .duration "max-tx-delay" d.maxTxDelay
      minInterBlockInterval := ← fields.orElse .duration "min-inter-block-interval" d.minInterBlockInterval }

end QuorumChain
