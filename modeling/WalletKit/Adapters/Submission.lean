import WalletKit.Core.Ports

/-!
# The submission adapters

What becomes of a broadcast: `Router` picks the public mempool or the private relay,
`PublicMempool` and a Protect relay go through alloy's provider, and Flashbots is posted to
directly. What the network does on the way is a `Delivery`, one field a step of the source,
so that each function here is a function of what happened. A delivery also says whether the
request left the process, which no adapter sees.
-/
namespace WalletKit

/-- How a request fails below JSON-RPC: before it left, by an HTTP status, or on the way
(a timeout, a reset, an empty answer). -/
inductive TransportKind where
  | unsent
  | http (status : Nat)
  | lost
  deriving DecidableEq, Repr

/-- alloy's error with its text. `retry` is the verdict of `is_retry_err`; `undecodable` is a
null response or one that does not deserialize. -/
inductive AlloyError where
  | errorResp (text : String)
  | transport (kind : TransportKind) (retry : Bool) (text : String)
  | undecodable (text : String)
  deriving DecidableEq, Repr

namespace AlloyError

def text : AlloyError → String
  | .errorResp text | .transport _ _ text | .undecodable text => text

/-- Map a transport error to the port's error. -/
def rpcErr (e : AlloyError) : RpcError :=
  match e with
  | .transport _ true _ => .call e.text true
  | _ => .call e.text false

end AlloyError

/-- The answer to `eth_sendRawTransaction`. -/
abbrev RawAnswer := Except AlloyError TxHash

def Transport.sendRaw (answer : RawAnswer) : Except RpcError TxHash := answer.mapError (·.rpcErr)

def PublicMempool.submit (answer : RawAnswer) : Except SubmissionError TxHash :=
  (Transport.sendRaw answer).mapError .rpc

namespace Http

inductive HttpClass where
  | unauthorized
  | transient
  | body
  deriving DecidableEq, Repr

/-- Triage a relay response by status code alone. -/
def classifyStatus (status : Nat) : HttpClass :=
  if status = 401 ∨ status = 403 then .unauthorized
  else if 500 ≤ status ∧ status < 600 ∨ status = 429 then .transient
  else .body

/-- Bound a relay's message. -/
def clip (text : String) : String := .ofList (text.toList.take 200)

end Http

/-- What `serde_json` reads from the body of a response. -/
structure JsonRpcResponse where
  result : Option TxHash
  error : Option String
  deriving DecidableEq, Repr

/-- A response with its body and what the body parses to. `statusText` is the status as it
is printed. -/
structure HttpResponse where
  status : Nat
  statusText : String
  body : String
  parsed : Option JsonRpcResponse
  deriving DecidableEq, Repr

/-- A `reqwest` error: `sent` says whether the request had left. -/
structure NetError where
  sent : Bool
  text : String
  deriving DecidableEq, Repr

/-- What each step of a Flashbots submit came to; the response may be cut off anywhere. -/
structure FlashbotsDelivery where
  blockNumber : Except RpcError Nat
  encoded : Except String Bytes
  signature : Except String String
  response : Except NetError HttpResponse
  deriving DecidableEq

/-- A Protect relay's URL, the transport built for it, and the answer over that. -/
structure ProtectDelivery where
  url : Except String String
  transport : Except String Unit
  answer : RawAnswer
  deriving DecidableEq

/-- What would happen on each arm. -/
structure Delivery where
  mempool : RawAnswer
  flashbots : FlashbotsDelivery
  protect : ProtectDelivery
  deriving DecidableEq

namespace PrivateMev

def encodeErr (text : String) : SubmissionError := .rpc (.call text false)

/-- Connect and timeout errors are transient. -/
def netErr (e : NetError) : SubmissionError := .rpc (.call e.text true)

/-- A hard Flashbots rejection carrying the relay's message. -/
def rejected (message : String) : SubmissionError := .relayRejected ("flashbots: " ++ message)

/-- Turn the Flashbots response into a hash or a classified error. -/
def classifyFlashbots (resp : HttpResponse) : Except SubmissionError TxHash :=
  match Http.classifyStatus resp.status with
  | .unauthorized => .error (.relayAuth ("flashbots: " ++ Http.clip resp.body))
  | .transient => .error (.rpc (.call
      ("flashbots " ++ resp.statusText ++ ": " ++ Http.clip resp.body) true))
  | .body =>
    match resp.parsed with
    | none => .error (rejected (Http.clip resp.body))
    | some ⟨_, some message⟩ =>
      let asRpc : SubmissionError := .rpc (.call message false)
      if asRpc.isAlreadyAccepted || asRpc.isUnderpriced then .error asRpc
      else .error (rejected message)
    | some ⟨some hash, none⟩ => .ok hash
    | some ⟨none, none⟩ =>
      .error (rejected ("no result in response: " ++ Http.clip resp.body))

/-- Build and sign the request, post it, and classify the response. The head is only read
for a block window. -/
def sendFlashbots (route : Flashbots) (d : FlashbotsDelivery) : Except SubmissionError TxHash := do
  if route.blockWindow.isSome then
    let _ ← d.blockNumber.mapError SubmissionError.rpc
  let _ ← d.encoded.mapError encodeErr
  let _ ← d.signature.mapError fun text => .relayAuth ("flashbots: " ++ text)
  let resp ← d.response.mapError netErr
  classifyFlashbots resp

/-- The alloy transport for a Protect relay. -/
def protectTransport (relay : ProtectRelay) (d : ProtectDelivery) :
    Except SubmissionError Unit := do
  match relay with
  | .custom _ => pure ()
  | _ => let _ ← d.url.mapError fun text => .relayRejected ("bad relay url: " ++ text)
  d.transport.mapError fun text => .relayRejected ("relay transport: " ++ text)

def submit (route : PrivateRoute) (d : Delivery) : Except SubmissionError TxHash :=
  match route with
  | .flashbots f => sendFlashbots f d.flashbots
  | .protect p => do
    protectTransport p.relay d.protect
    (Transport.sendRaw d.protect.answer).mapError .rpc

end PrivateMev

namespace Router

/-- The private arm is there only with a relay identity. -/
def supportsRoute (hasPrivate : Bool) : SubmissionRoute → Bool
  | .public => true
  | .private _ => hasPrivate

def submit (hasPrivate : Bool) (opts : SubmissionOpts) (d : Delivery) :
    Except SubmissionError TxHash :=
  match opts.route with
  | .public => PublicMempool.submit d.mempool
  | .private route =>
    if hasPrivate then PrivateMev.submit route d else .error (.route .relayNotConfigured)

end Router

end WalletKit
