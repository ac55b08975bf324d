import E2eeProxy.Lua.Gsub
import E2eeProxy.ProxyState

/-! # Attestation of instance keys

e2ee_attest.lua. A quote is accepted for a key and a nonce by `checkQuote`; all
else is about which quotes are looked at and how long an acceptance counts. The
parts of its error texts that describe the shape of a document are left out.
-/

namespace E2eeProxy.Attest

open Lua Lib

def hexDigit (n : Nat) : UInt8 := UInt8.ofNat (if n < 10 then 48 + n else 87 + n)

/-- Lower-case hex. -/
def toHex (s : Bytes) : Bytes := s.flatMap fun c => [hexDigit (c.toNat / 16), hexDigit (c.toNat % 16)]

/-! ## Quotes -/

def hdr : Nat := 48

def minQuote : Nat := 632

def byteAt (s : Bytes) (off : Nat) : Nat := (s.getD off 0).toNat

def leU16 (s : Bytes) (off : Nat) : Nat := byteAt s off + byteAt s (off + 1) * 256

def leU32 (s : Bytes) (off : Nat) : Nat :=
  byteAt s off + byteAt s (off + 1) * 256 + byteAt s (off + 2) * 65536 +
    byteAt s (off + 3) * 16777216

def looksLikeTdxQuote (b : Bytes) : Bool :=
  minQuote ≤ b.length && (leU16 b 0 = 4 || leU16 b 0 = 5) && leU16 b 2 = 2 && leU32 b 4 = 0x81

structure Quote where
  version : Nat
  tdAttributes : Bytes
  xfam : Bytes
  mrTd : Bytes
  rtmr0 : Bytes
  rtmr1 : Bytes
  rtmr2 : Bytes
  rtmr3 : Bytes
  reportData : Bytes

def parseQuote (b : Bytes) : Quote :=
  let field (off len : Nat) : Bytes := (b.drop (hdr + off)).take len
  { version := leU16 b 0
    tdAttributes := field 120 8
    xfam := field 128 8
    mrTd := field 136 48
    rtmr0 := field 328 48
    rtmr1 := field 376 48
    rtmr2 := field 424 48
    rtmr3 := field 472 48
    reportData := field 520 64 }

inductive CheckError where
  | notAQuote
  | notBound (reportData : Bytes)
  | debug
  | measurement (name : String) (expected got : Bytes)
  deriving DecidableEq

structure Details where
  version : Nat
  binding : String
  measurements : List (String × Bytes)
  debug : Bool
  deriving DecidableEq

section Check

variable (cfg : Config) (pf : Platform)

/-- The digests that `report_data` may begin with. -/
def bindingCandidates (nonceRaw nonceHex pkB64 pkRaw : Bytes) : List (String × Bytes) :=
  [("sha256(nonce_hex||pk_b64)", pf.sha256 (nonceHex ++ pkB64)),
    ("sha256(nonce_raw||pk_raw)", pf.sha256 (nonceRaw ++ pkRaw)),
    ("sha256(nonce_raw||pk_b64)", pf.sha256 (nonceRaw ++ pkB64)),
    ("sha256(nonce_hex||pk_raw)", pf.sha256 (nonceHex ++ pkRaw)),
    ("sha256(pk_raw||nonce_raw)", pf.sha256 (pkRaw ++ nonceRaw)),
    ("sha256(pk_b64||nonce_hex)", pf.sha256 (pkB64 ++ nonceHex))]

/-- The measurements of a quote with what the configuration wants of each. -/
def measurements (q : Quote) : List (String × Bytes × Bytes) :=
  [("mrtd", cfg.attestMrtd, toHex q.mrTd), ("rtmr0", cfg.attestRtmr0, toHex q.rtmr0),
    ("rtmr1", cfg.attestRtmr1, toHex q.rtmr1), ("rtmr2", cfg.attestRtmr2, toHex q.rtmr2),
    ("rtmr3", cfg.attestRtmr3, toHex q.rtmr3)]

def checkMeasurements (q : Quote) : Except CheckError (List (String × Bytes)) :=
  match (measurements cfg q).find? fun (_, want, got) => want ≠ [] ∧ want ≠ got with
  | some (name, want, got) => .error (.measurement name want got)
  | none => .ok ((measurements cfg q).map fun (name, _, got) => (name, got))

/-- Verify a quote against our nonce and key and the policy. -/
def checkQuote (quoteBin nonceRaw pkB64 : Bytes) : Except CheckError Details :=
  if ¬ looksLikeTdxQuote quoteBin then .error .notAQuote
  else
    let q := parseQuote quoteBin
    let pkRaw := (pf.decodeBase64 pkB64).getD []
    match (bindingCandidates pf nonceRaw (toHex nonceRaw) pkB64 pkRaw).find? fun (_, digest) =>
        q.reportData.take 32 = digest with
    | none => .error (.notBound (q.reportData.take 32))
    | some (binding, _) =>
        let debug := byteAt q.tdAttributes 0 % 2 = 1
        if debug ∧ ¬ cfg.attestAllowDebugTd then .error .debug
        else
          match checkMeasurements cfg q with
          | .error err => .error err
          | .ok got => .ok { version := q.version, binding, measurements := got, debug }

end Check

/-! ## Quotes in a document -/

def isHexByte (c : UInt8) : Bool :=
  (48 ≤ c && c ≤ 57) || (65 ≤ c && c ≤ 70) || (97 ≤ c && c ≤ 102)

def hexValue (c : UInt8) : Nat :=
  if c ≤ 57 then c.toNat - 48 else if c ≤ 70 then c.toNat - 55 else c.toNat - 87

def hexPairs : Bytes → Bytes
  | a :: b :: s => UInt8.ofNat (hexValue a * 16 + hexValue b) :: hexPairs s
  | _ => []

def hexDecode (s : Bytes) : Option Bytes :=
  if s.length < minQuote * 2 ∨ s.length % 2 ≠ 0 ∨ ¬ s.all isHexByte then none else some (hexPairs s)

def maxQuotes : Nat := 32

structure FoundQuote where
  raw : Bytes
  path : Bytes
  deriving DecidableEq

section Find

variable (pf : Platform)

/-- The quote a string holds, in base64 of either alphabet or in hex. -/
def quoteIn (s : Bytes) : Option Bytes :=
  if s.length < minQuote then none
  else
    let std := s.map fun c => if c = 45 then 43 else if c = 95 then 47 else c
    let raw := pf.decodeBase64 s <|> pf.decodeBase64 std
    (raw.filter looksLikeTdxQuote) <|> ((hexDecode s).filter looksLikeTdxQuote)

/-- Collects the quotes of a document down to a depth. -/
def findQuotes : Nat → Value → Bytes → List FoundQuote → List FoundQuote
  | 0, _, _, out => out
  | depth + 1, node, path, out =>
      if maxQuotes ≤ out.length then out
      else
        match node with
        | .str s => out ++ ((quoteIn pf s).map fun raw => { raw, path : FoundQuote }).toList
        | .arr items => items.zipIdx.foldl (fun out (v, i) =>
            findQuotes depth v (path ++ lit "." ++ pf.tostringNumber (i + 1)) out) out
        | .obj fields => fields.foldl (fun out (k, v) =>
            findQuotes depth v (path ++ lit "." ++ k) out) out
        | .null | .bool _ | .num _ => out

/-- `v == id` for a value of another document, where a table is another table. -/
def isId (id : Id) (v : Option Value) : Bool := id.address.isNone && v = some id.value

inductive Selected where
  | entry (node : Value) (i : Nat)
  | failed
  | whole
  deriving DecidableEq

/-- A field of a table that is a table, as a list. -/
def tableField (data : Value) (key : String) : List Value :=
  match data with
  | .obj fields =>
      match fields.lookup (lit key) with
      | some (.arr items) => items
      | _ => []
  | _ => []

/-- Prefers the entry for our instance. -/
def selectEvidence (data : Value) (id : Id) : Selected :=
  let isOurs (entry : Value) : Bool :=
    match entry with
    | .obj fields => isId id (fields.lookup (lit "instance_id"))
    | _ => false
  match (tableField data "evidence").zipIdx.find? fun (entry, _) => isOurs entry with
  | some (entry, i) => .entry entry (i + 1)
  | none =>
      if (tableField data "failed_instance_ids").any fun v => isId id (some v) then .failed
      else .whole

/-- The quotes that are tried for an instance, if the document does not report
    it as failed. -/
def quotesFor (data : Value) (id : Id) : Option (List FoundQuote) :=
  let all := findQuotes pf 9 data [] []
  match selectEvidence data id with
  | .failed => none
  | .whole => some all
  | .entry node i =>
      let own := findQuotes pf 9 node (lit ".evidence." ++ pf.tostringNumber i) []
      some (if own = [] then all else own)

end Find

/-! ## Fetching -/

def defaultUrls : List Bytes :=
  [lit "\x7bapi\x7d/chutes/\x7bchute_id\x7d/evidence?nonce=\x7bnonce_hex\x7d",
    lit "\x7bapi\x7d/instances/\x7binstance_id\x7d/attestation?nonce=\x7bnonce_hex\x7d",
    lit "\x7bapi\x7d/e2e/instances/\x7binstance_id\x7d/attestation?nonce=\x7bnonce_hex\x7d",
    lit "\x7bapi\x7d/instances/\x7binstance_id\x7d/evidence?nonce=\x7bnonce_hex\x7d"]

/-- `URL_TEMPLATES`. -/
def urlTemplates (cfg : Config) : List Bytes :=
  match cfg.attestUrls with
  | none | some [] => defaultUrls
  | some urls => ((urls.splitOn 44).map trim).filter fun u => u ≠ []

inductive FetchError where
  | noneTried
  | notJson (url : Bytes)
  | status (status : Nat) (url : Bytes)
  | request (err url : Bytes)
  deriving DecidableEq

inductive AttestError where
  | nonce
  | fetch (err : FetchError)
  | unavailable (url : Bytes)
  | noQuote (url : Bytes)
  | rejected (quotes : Nat) (url : Bytes) (last : Option (CheckError × Bytes))
  deriving DecidableEq

section Tasks

variable (cfg : Config) (pf : Platform)

/-- The URL a template stands for. -/
def evidenceUrl (chuteId instanceId : Value) (nonceHex template : Bytes) : LuaM Bytes := do
  let url ← gsub pf.toRuntime (lit "\x7bapi\x7d") (.str cfg.apiBase) template
  let url ← gsub pf.toRuntime (lit "\x7bchute_id\x7d") chuteId url
  let url ← gsub pf.toRuntime (lit "\x7binstance_id\x7d") instanceId url
  gsub pf.toRuntime (lit "\x7bnonce_hex\x7d") (.str nonceHex) url

/-- The templates that are left, and why the last one failed. -/
def tryTemplates (chuteId instanceId : Value) (nonceHex apiKey : Bytes) :
    List Bytes → FetchError → Prog (Except FetchError (Value × Bytes))
  | [], last => return .error last
  | template :: rest, _ => do
      let url ← lua (evidenceUrl cfg pf chuteId instanceId nonceHex template)
      match ← await (.evidence url apiKey) with
      | .error err => tryTemplates chuteId instanceId nonceHex apiKey rest (.request err url)
      | .ok res =>
          if res.status ≠ 200 then
            tryTemplates chuteId instanceId nonceHex apiKey rest (.status res.status url)
          else
            match pf.decodeTruthy res.body with
            | none => tryTemplates chuteId instanceId nonceHex apiKey rest (.notJson url)
            | some data =>
                modifyState fun st => { st with goodUrlTemplate := some template }
                return .ok (data, url)

/-- The endpoint that worked last time is tried first. -/
def fetchEvidence (chuteId instanceId : Value) (nonceHex apiKey : Bytes) :
    Prog (Except FetchError (Value × Bytes)) := do
  let st ← getState
  let others := (urlTemplates cfg).filter fun t => some t ≠ st.goodUrlTemplate
  tryTemplates cfg pf chuteId instanceId nonceHex apiKey (st.goodUrlTemplate.toList ++ others)
    .noneTried

/-! ## Verifying -/

/-- Whether a document has a quote that binds our nonce to this key. -/
def judge (instanceId : Id) (nonceRaw pkB64 : Bytes) (data : Value) (url : Bytes) :
    LuaM (Except AttestError Details) :=
  match quotesFor pf data instanceId with
  | none => do
      let _ ← pf.concatArg (some instanceId.value)
      return .error (.unavailable url)
  | some [] => .ok (.error (.noQuote url))
  | some quotes =>
      match quotes.findSome? fun q => (checkQuote cfg pf q.raw nonceRaw pkB64).toOption with
      | some details => .ok (.ok details)
      | none => .ok (.error (.rejected quotes.length url (quotes.getLast?.bind fun q =>
          match checkQuote cfg pf q.raw nonceRaw pkB64 with
          | .error err => some (err, q.path)
          | .ok _ => none)))

/-- `to_hex(sha256_bin(pk))`, which raises unless it is given a string. -/
def fingerprint (pk : Option Value) : LuaM (Bytes × Bytes) :=
  match pk with
  | some (.str pk) => .ok (pk, toHex (pf.sha256 pk))
  | _ => .error .badArgument

/-- The verification itself, which was started at `now`. -/
def verifyFresh (chuteId : Value) (instanceId : Id) (pk fp apiKey : Bytes) (now : Rat) :
    Prog (Except AttestError Bool) := do
  match (← ask (.random 32)).filter fun nonce => nonce.length = 32 with
  | none => return .error .nonce
  | some nonceRaw =>
      match ← fetchEvidence cfg pf chuteId instanceId.value (toHex nonceRaw) apiKey with
      | .error err => return .error (.fetch err)
      | .ok (data, url) =>
          match ← lua (judge cfg pf instanceId nonceRaw pk data url) with
          | .error err => return .error err
          | .ok _ =>
              modifyState fun st =>
                { st with
                  verified := Function.update st.verified instanceId
                    (some { pubkeyFp := fp, expiresAt := now + cfg.attestTtlS })
                  failed := Function.update st.failed instanceId none }
              return .ok false

/-- Verify that the key came from a genuine TD; the answer says whether that was
    known. A key that was swapped is verified again. -/
def verify (chuteId : Value) (instanceId : Id) (e2ePubkey : Option Value) (apiKey : Bytes) :
    Prog (Except AttestError Bool) :=
  if cfg.attestMode = .off then return .ok false
  else do
    let (pk, fp) ← lua (fingerprint pf e2ePubkey)
    let now ← ngxNow
    let st ← getState
    match (st.verified instanceId).filter fun c => c.pubkeyFp = fp ∧ now < c.expiresAt with
    | some _ => return .ok true
    | none => verifyFresh cfg pf chuteId instanceId pk fp apiKey now

/-- In observe mode a failure is remembered and let pass. -/
def observeFailure (instanceId : Id) (e2ePubkey : Option Value) : Prog (Except AttestError Unit) := do
  let (_, fp) ← lua (fingerprint pf e2ePubkey)
  let now ← ngxNow
  modifyState fun st =>
    { st with
      failed := Function.update st.failed instanceId
        (some { pubkeyFp := fp, expiresAt := now + cfg.attestFailTtlS }) }
  return .ok ()

/-- In observe mode, a failure that was logged recently. -/
def knownFailure (instanceId : Id) (e2ePubkey : Option Value) : Prog Bool :=
  if cfg.attestMode = .observe then do
    let (_, fp) ← lua (fingerprint pf e2ePubkey)
    let st ← getState
    let now ← ngxNow
    return (st.failed instanceId).any fun f => f.pubkeyFp = fp ∧ now < f.expiresAt
  else return false

/-- Decide whether the handler may use this instance. -/
def guard (chuteId : Value) (instanceId : Id) (e2ePubkey : Option Value) (apiKey : Bytes) :
    Prog (Except AttestError Unit) :=
  if cfg.attestMode = .off then return .ok ()
  else do
    if ← knownFailure cfg pf instanceId e2ePubkey then return .ok ()
    else
      match ← verify cfg pf chuteId instanceId e2ePubkey apiKey with
      | .ok _ => return .ok ()
      | .error err =>
          if cfg.attestMode = .observe then observeFailure cfg pf instanceId e2ePubkey
          else return .error err

/-- Drop cached verification state for an instance. -/
def invalidate (instanceId : Id) : Prog Unit :=
  modifyState fun st =>
    { st with
      verified := Function.update st.verified instanceId none
      failed := Function.update st.failed instanceId none }

end Tasks

end E2eeProxy.Attest
