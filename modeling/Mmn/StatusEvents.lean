import Mmn.JsonValue
import Mmn.Queries

/-!
# Status events

A client that subscribes to the status of transactions is sent a message for
every event the node publishes: a transaction enters the pool, is in a
block, is finalized or fails. The message repeats the free-form data of the
transaction, which its sender has chosen. If the data is JSON for a map of
texts, its type is rewritten to one of the three that clients know; if it is
anything else, it is passed on as it is.

JSON for a map is more than an object: null is accepted too, and gives the
nil map. A nil map can be read – it has no type – but not written, and the
program ends with a panic. So a message is made for an event exactly if the
data of its transaction is not null, and a stream of events is delivered
exactly if none of those that are sent is about such a transaction
(`statusStream_ok_iff`). A transfer with this data is as good as any other
to its signature check, and a node with a subscriber does not survive it
(`null_extraInfo_panics`).
-/

namespace Mmn

/-! ## Maps of texts -/

/-- A map of texts, which may be nil. -/
abbrev StringMap : Type := Option (AList (fun _ : String => String))

/-- The text of a member; null leaves it empty. -/
def memberText : Json.Value → Option String
  | .null => some ""
  | .text s => some s
  | _ => none

/-- The map of an object. Of two members with one name the second counts. -/
def decodeMembers (ms : List (String × Json.Value)) :
    Option (AList (fun _ : String => String)) :=
  ms.foldlM (fun acc m => (memberText m.2).map (acc.insert m.1)) ∅

/-- **Decode a map of texts.** Null decodes to the nil map. -/
def unmarshalStringMap (s : String) : Option StringMap :=
  match Json.parse s with
  | some .null => some none
  | some (.object ms) => (decodeMembers ms).map some
  | _ => none

/-- The members of a map in the order of their names. -/
def sortedMembers (m : AList (fun _ : String => String)) : List (String × String) :=
  (m.entries.map fun e => (e.1, e.2)).mergeSort fun a b => a.1 ≤ b.1

/-- Encode a map of texts. -/
def marshalStringMap (m : AList (fun _ : String => String)) : String :=
  Json.Write.object (sortedMembers m)

/-! ## The free-form data in a message -/

/-- How a handler ends other than by an answer. -/
inductive RuntimePanic where
  /-- A nil map is written to. -/
  | assignmentToNilMap
deriving DecidableEq

/-- **The data of a transaction, as subscribers see it.** -/
def convertExtraInfoToEvent (extraInfo : String) : Except RuntimePanic String :=
  match unmarshalStringMap extraInfo with
  | none => .ok extraInfo
  | some extraInfoMap =>
    let type := (extraInfoMap.bind fun m => m.lookup "type").getD ""
    if type = "give_coffee" ∨ type = "unlock_item" then .ok extraInfo
    else match extraInfoMap with
      -- the nil map can be read, as above, but not written to
      | none => .error .assignmentToNilMap
      | some m => .ok (marshalStringMap (m.insert "type" "transfer_token"))

/-- The nil map is what null decodes to, and nothing else. -/
theorem unmarshalStringMap_eq_nil_iff (s : String) :
    unmarshalStringMap s = some none ↔ Json.IsNull s := by
  rw [← Json.parse_eq_null_iff]
  unfold unmarshalStringMap
  cases Json.parse s with
  | none => simp
  | some v => cases v <;> simp

/-- **The data is rewritten or passed on unless it is null.** -/
theorem convertExtraInfoToEvent_ok_iff (extraInfo : String) :
    (∃ out, convertExtraInfoToEvent extraInfo = .ok out) ↔
      ¬Json.IsNull extraInfo := by
  rw [← unmarshalStringMap_eq_nil_iff]
  unfold convertExtraInfoToEvent
  cases unmarshalStringMap extraInfo with
  | none => simp
  | some extraInfoMap =>
    cases extraInfoMap with
    | none => simp
    | some m =>
      dsimp only
      split <;> simp

/-! ## Events and messages -/

/-- **An event of the node**, with the time it was made at. -/
inductive BlockchainEvent where
  | transactionAddedToMempool (txHash : String) (tx : Transaction) (timestamp : Int64)
  | transactionIncludedInBlock (tx : Transaction) (blockSlot : UInt64)
    (blockHash : String)
      (timestamp : Int64)
  | transactionFinalized (tx : Transaction) (blockSlot : UInt64) (blockHash : String)
      (timestamp : Int64)
  | transactionFailed (tx : Transaction) (errorMessage : String) (timestamp : Int64)
  | heartBeat (timestamp : Int64)

/-- The transaction of an event. A sign of life has none. -/
def BlockchainEvent.transaction : BlockchainEvent → Option Transaction
  | .transactionAddedToMempool _ tx _ => some tx
  | .transactionIncludedInBlock tx _ _ _ => some tx
  | .transactionFinalized tx _ _ _ => some tx
  | .transactionFailed tx _ _ => some tx
  | .heartBeat _ => none

/-- A message to a subscriber. Fields that are not set are empty. -/
structure TransactionStatusInfo where
  txHash : String
  status : TransactionStatus
  blockSlot : UInt64 := 0
  blockHash : String := ""
  confirmations : UInt64 := 0
  errorMessage : String := ""
  timestamp : UInt64
  extraInfo : String
  /-- The amount, as text. -/
  amount : String
  textData : String
  sender : String := ""
  recipient : String := ""
deriving DecidableEq

/-- How many slots are finalized since a slot, the slot included; one if it
is not finalized. -/
def Store.getConfirmations (s : Store) (blockSlot : UInt64) : UInt64 :=
  if blockSlot ≤ s.latestFinalized then s.latestFinalized - blockSlot + 1 else 1

/-- The fields that every message about a transaction has. -/
def statusInfo (txHash : String) (status : TransactionStatus) (timestamp : Int64)
    (tx : Transaction) :
    Except RuntimePanic TransactionStatusInfo :=
  (convertExtraInfoToEvent tx.extraInfo).map fun extraInfo =>
    { txHash := txHash, status := status, timestamp := timestamp.toUInt64,
      extraInfo := extraInfo,
      amount := Transaction.uint256ToString tx.amount, textData :=
        tx.textData, sender := tx.sender,
      recipient := tx.recipient }

/-- **The message of an event.** -/
def convertEventToStatusUpdate (s : Store) (event : BlockchainEvent)
    (txHash : String) :
    Except RuntimePanic TransactionStatusInfo :=
  match event with
  | .transactionAddedToMempool _ tx timestamp =>
    statusInfo txHash .pending timestamp tx
  | .transactionIncludedInBlock tx blockSlot blockHash timestamp =>
    (statusInfo txHash .confirmed timestamp tx).map fun info =>
      { info with
        blockSlot := blockSlot, blockHash := blockHash, confirmations :=
          s.getConfirmations blockSlot }
  | .transactionFinalized tx blockSlot blockHash timestamp =>
    (statusInfo txHash .finalized timestamp tx).map fun info =>
      { info with
        blockSlot := blockSlot, blockHash := blockHash, confirmations :=
          s.getConfirmations blockSlot }
  | .transactionFailed tx errorMessage timestamp =>
    (statusInfo txHash .failed timestamp tx).map fun info =>
      { info with errorMessage := errorMessage }
  | .heartBeat timestamp => .ok
      { txHash := "HeartBeat", status := .pending, timestamp := timestamp.toUInt64,
        extraInfo := "", amount := "0", textData := "HeartBeat" }

theorem map_ok_iff {ε α β : Type} {f : α → β} {r : Except ε α} :
    (∃ b, r.map f = .ok b) ↔ ∃ a, r = .ok a := by
  cases r <;> simp [Except.map]

theorem statusInfo_ok_iff (txHash : String) (status : TransactionStatus)
    (timestamp : Int64) (tx : Transaction) :
    (∃ info, statusInfo txHash status timestamp tx = .ok info) ↔
      ¬Json.IsNull tx.extraInfo := by
  unfold statusInfo
  rw [map_ok_iff, convertExtraInfoToEvent_ok_iff]

/-- **A message is made for an event exactly if the data of its transaction
is not null**, whatever kind of event it is. -/
theorem statusUpdate_ok_iff (s : Store) (event : BlockchainEvent) (txHash : String) :
    (∃ info, convertEventToStatusUpdate s event txHash = .ok info) ↔
      ∀ tx, event.transaction = some tx → ¬Json.IsNull tx.extraInfo := by
  unfold convertEventToStatusUpdate BlockchainEvent.transaction
  cases event with
  | transactionAddedToMempool _ tx timestamp => simp [statusInfo_ok_iff]
  | transactionIncludedInBlock tx blockSlot blockHash timestamp =>
    simp [map_ok_iff, statusInfo_ok_iff]
  | transactionFinalized tx blockSlot blockHash timestamp =>
    simp [map_ok_iff, statusInfo_ok_iff]
  | transactionFailed tx errorMessage timestamp =>
    simp [map_ok_iff, statusInfo_ok_iff]
  | heartBeat timestamp => simp

/-! ## The stream -/

/-- Events about user content are not sent. -/
def shouldSendEvent (event : BlockchainEvent) : Bool :=
  match event.transaction with
  | some tx => tx.type ≠ txTypeUserContent
  | none => true

/-- **The stream of a subscriber**: the messages that are sent, and the
panic it ends with if it does. Each event comes with the store at the time. -/
def subscribeTransactionStatus [Primitives] :
    List (Store × BlockchainEvent) → List TransactionStatusInfo × Option RuntimePanic
  | [] => ([], none)
  | (s, event) :: events =>
    if shouldSendEvent event then
      match convertEventToStatusUpdate s event (Transaction.hash event.transaction)
        with
      | .error err => ([], some err)
      | .ok statusUpdate =>
        let later := subscribeTransactionStatus events
        (statusUpdate :: later.1, later.2)
    else subscribeTransactionStatus events

/-- **Status events do not end the stream unless data is null.** A message
is made for an event exactly if the data of its transaction is not null; a
stream goes on exactly if this is so for every event that is sent. -/
theorem statusStream_ok_iff [Primitives] (s : Store) (event : BlockchainEvent)
    (txHash : String) (events : List (Store × BlockchainEvent)) :
    ((∃ info, convertEventToStatusUpdate s event txHash = .ok info) ↔
      ∀ tx, event.transaction = some tx → ¬Json.IsNull tx.extraInfo) ∧
    ((subscribeTransactionStatus events).2 = none ↔
      ∀ e ∈ events, shouldSendEvent e.2 = true →
        ∀ tx, e.2.transaction = some tx → ¬Json.IsNull tx.extraInfo) := by
  refine ⟨statusUpdate_ok_iff s event txHash, ?_⟩
  induction events with
  | nil => simp [subscribeTransactionStatus]
  | cons e events ih =>
    obtain ⟨s, event⟩ := e
    have hevent := statusUpdate_ok_iff s event (Transaction.hash event.transaction)
    rw [subscribeTransactionStatus, List.forall_mem_cons]
    by_cases hsend : shouldSendEvent event = true
    · rw [if_pos hsend, ← ih]
      cases hupdate : convertEventToStatusUpdate s event
        (Transaction.hash event.transaction) with
      | error err =>
        rw [hupdate] at hevent
        simp only [reduceCtorEq, exists_false, false_iff] at hevent
        simp [hsend, hevent]
      | ok info =>
        have hok := hevent.mp ⟨info, hupdate⟩
        exact ⟨fun h => ⟨fun _ => hok, h⟩, fun h => h.2⟩
    · rw [if_neg hsend, ih]
      simp [hsend]

section

attribute [local instance] Sample.primitives

/-- A transfer whose free-form data is null, signed by its sender. -/
def Sample.nullTransfer : Transaction :=
  let tx := { Sample.transfer 1 2 10 1 0 with extraInfo := "null" }
  { tx with signature :=
    Base58.encode (Sample.signWith (Sample.keyBytes 1) tx.serialize) }

/-- **A transfer with null for data** has a valid signature, and is sent to
subscribers when it enters the pool; the stream ends with a panic. -/
theorem null_extraInfo_panics :
    Sample.nullTransfer.verify = true ∧
      convertEventToStatusUpdate Store.empty
          (.transactionAddedToMempool (Transaction.hash (some Sample.nullTransfer))
            Sample.nullTransfer 0)
          (Transaction.hash (some Sample.nullTransfer)) = .error .assignmentToNilMap ∧
      (subscribeTransactionStatus [(Store.empty, .transactionAddedToMempool
        (Transaction.hash (some Sample.nullTransfer)) Sample.nullTransfer 0)]).2
          = some .assignmentToNilMap := by
  refine ⟨by decide +kernel, by decide +kernel, by decide +kernel⟩

end

end Mmn
