import Engram.Users
import Engram.Lib.Fallible
/-!
# Signing in

`auth.py` and the part of `main.py` that starts the server, over the endpoints.
A request comes with a bearer token or without; PyJWT and the key service of the
pool are parameters, and may answer each request differently.
-/

namespace Engram

open Backend Fallible

/-! ## Tokens -/

/-- The exceptions that `current_user` tells apart. -/
inductive JwtError where
  | invalidToken | jwkClient | jwkClientConnection | other
  deriving DecidableEq

/-- A value of a JSON object: the verifier looks into strings only. -/
inductive Claim where
  | str (s : String)
  | other
  deriving DecidableEq

abbrev Claims := String → Option Claim

def requiredClaims : List String := ["exp", "iat", "iss", "sub", "client_id", "token_use"]

/-- PyJWT with RS256 as the only algorithm. `Signed` is what the holder of a key
has signed; `decode` checks the signature, the issuer and that claims are there. -/
structure Jwt (Key : Type) where
  Signed : Key → String → Claims → Prop
  getUnverifiedHeader : String → Except JwtError Claims
  getSigningKeyFromJwt : String → Except JwtError Key
  decode : String → Key → String → Except JwtError Claims
  decode_signed : ∀ {token key issuer claims}, decode token key issuer = .ok claims → Signed key token claims
  decode_issuer : ∀ {token key issuer claims}, decode token key issuer = .ok claims → claims "iss" = some (.str issuer)
  decode_required : ∀ {token key issuer claims}, decode token key issuer = .ok claims →
    ∀ name ∈ requiredClaims, claims name ≠ none

variable {Key : Type}

/-! ## The verifier -/

inductive AuthMode where
  | cognito | disabled
  deriving DecidableEq

structure AuthSettings where
  authMode : AuthMode := .cognito
  cognitoUserPoolId : String := ""
  cognitoClientId : String := ""

structure CognitoVerifier where
  issuer : String
  clientId : String

/-- `s.split(sep, 1)[0]`. -/
def beforeFirst (sep : Char) (s : String) : String := String.ofList (s.toList.takeWhile (· ≠ sep))

def CognitoVerifier.init (settings : AuthSettings) : Except String CognitoVerifier :=
  if settings.cognitoUserPoolId = "" ∨ settings.cognitoClientId = "" then
    .error ("Cognito authentication requires ENGRAM_COGNITO_USER_POOL_ID and ENGRAM_COGNITO_CLIENT_ID. For local " ++
      "demos only, set ENGRAM_AUTH_MODE=disabled.")
  else
    let region := beforeFirst '_' settings.cognitoUserPoolId
    .ok ⟨"https://cognito-idp." ++ region ++ ".amazonaws.com/" ++ settings.cognitoUserPoolId, settings.cognitoClientId⟩

/-- `claims[name]`; a `KeyError` is none of PyJWT's. -/
def Claims.item (claims : Claims) (name : String) : Except JwtError Claim :=
  match claims name with
  | some claim => .ok claim
  | none => .error .other

def Claim.isStr : Option Claim → Bool
  | some (.str _) => true
  | _ => false

/-- The user a token was issued to. -/
def CognitoVerifier.subject (v : CognitoVerifier) (jwt : Jwt Key) (token : String) : Except JwtError String := do
  let header ← jwt.getUnverifiedHeader token
  if header "alg" ≠ some (.str "RS256") ∨ ¬ Claim.isStr (header "kid") then .error .invalidToken
  else do
    let key ← jwt.getSigningKeyFromJwt token
    let claims ← jwt.decode token key v.issuer
    let tokenUse ← claims.item "token_use"
    let clientId ← claims.item "client_id"
    if tokenUse ≠ .str "access" ∨ clientId ≠ .str v.clientId then .error .invalidToken
    else match ← claims.item "sub" with
      | .str subject => if subject = "" then .error .invalidToken else return subject
      | .other => .error .invalidToken

/-- The server: with accounts, or open. `lifespan` decides which. -/
inductive App where
  | cognito (verifier : CognitoVerifier)
  | disabled

def App.start (settings : AuthSettings) : Except String App :=
  match settings.authMode with
  | .cognito => App.cognito <$> CognitoVerifier.init settings
  | .disabled => .ok .disabled

/-- The subject of a request, if there is one, or the status and detail of the response. -/
def App.currentUser (app : App) (jwt : Jwt Key) (credentials : Option String) : Except (Nat × String) (Option String) :=
  match app, credentials with
  | .disabled, _ => .ok none
  | .cognito _, none => .error (401, "Bearer access token required")
  | .cognito verifier, some token => match verifier.subject jwt token with
    | .ok subject => .ok (some subject)
    | .error .jwkClientConnection => .error (503, "Authentication service unavailable")
    | .error .invalidToken | .error .jwkClient => .error (401, "Invalid access token")
    | .error .other => .error (500, "Internal Server Error")

/-! ## Requests with credentials -/

variable [Host]

/-- A request as it comes in, with what PyJWT answers at that time. -/
structure HttpRequest (Key : Type) where
  credentials : Option String
  jwt : Jwt Key
  request : Request
  input : Input

/-- The token is looked at before the body and the user it names. -/
def App.respond (app : App) (ag : Agent) (S : Services) (a : HttpRequest Key) (w : World) : Response × World :=
  match app.currentUser a.jwt a.credentials with
  | .error (status, detail) => (.error status detail, w)
  | .ok subject => ag.serve S subject a.request (w.given a.input)

/-- The request is let in as `u`. -/
def App.admits (app : App) (u : String) (a : HttpRequest Key) : Bool :=
  match app.currentUser a.jwt a.credentials with
  | .ok (some subject) => subject = u
  | _ => false

/-- The token is an access token for this app that the pool signed for `u`. -/
structure CognitoVerifier.Grants (v : CognitoVerifier) (jwt : Jwt Key) (token u : String) : Prop where
  header : ∃ header kid, jwt.getUnverifiedHeader token = .ok header ∧ header "alg" = some (.str "RS256") ∧
    header "kid" = some (.str kid)
  signed : ∃ key claims, jwt.getSigningKeyFromJwt token = .ok key ∧ jwt.Signed key token claims ∧
    claims "iss" = some (.str v.issuer) ∧ claims "token_use" = some (.str "access") ∧
    claims "client_id" = some (.str v.clientId) ∧ claims "sub" = some (.str u)
  user : u ≠ ""

section Verifier
variable {v : CognitoVerifier} {jwt : Jwt Key} {token u : String}

omit [Host] in
theorem Claims.item_ok {claims : Claims} {name : String} {claim : Claim} :
    claims.item name = .ok claim ↔ claims name = some claim := by
  unfold Claims.item
  cases claims name <;> simp

omit [Host] in
theorem Claim.isStr_iff {claim : Option Claim} : Claim.isStr claim ↔ ∃ s, claim = some (.str s) := by
  unfold Claim.isStr
  split <;> simp_all

omit [Host] in
/-- Who is let in has an access token of this app's. -/
theorem grants_subject (h : v.subject jwt token = .ok u) : v.Grants jwt token u := by
  unfold CognitoVerifier.subject at h
  obtain ⟨header, hheader, h⟩ := bind_eq_ok.1 h
  split at h
  · cases h
  next halg =>
  obtain ⟨hrs256, hkid⟩ := not_or.1 halg
  obtain ⟨kid, hkid⟩ := Claim.isStr_iff.1 (not_not.1 hkid)
  obtain ⟨key, hkey, h⟩ := bind_eq_ok.1 h
  obtain ⟨claims, hclaims, h⟩ := bind_eq_ok.1 h
  obtain ⟨tokenUse, huse, h⟩ := bind_eq_ok.1 h
  obtain ⟨clientId, hclient, h⟩ := bind_eq_ok.1 h
  split at h
  · cases h
  next haccess =>
  obtain ⟨haccess, hours⟩ := not_or.1 haccess
  rw [not_not] at hrs256 haccess hours
  rw [haccess] at huse
  rw [hours] at hclient
  obtain ⟨subject, hsub, h⟩ := bind_eq_ok.1 h
  rw [Claims.item_ok] at huse hclient hsub
  cases subject with
  | other => cases h
  | str subject =>
    simp only at h
    by_cases hne : subject = ""
    · rw [if_pos hne] at h
      cases h
    · rw [if_neg hne] at h
      cases h
      exact ⟨⟨header, kid, hheader, hrs256, hkid⟩,
        ⟨key, claims, hkey, jwt.decode_signed hclaims, jwt.decode_issuer hclaims,
        huse, hclient, hsub⟩, hne⟩

omit [Host] in
/-- With accounts, a request is let in as someone or turned away. -/
theorem currentUser_cognito (v : CognitoVerifier) (jwt : Jwt Key) (credentials : Option String) :
    (∃ token u, credentials = some token ∧ v.subject jwt token = .ok u ∧
        (App.cognito v).currentUser jwt credentials = .ok (some u)) ∨
      ∃ status detail, status ∈ [401, 500, 503] ∧
        (App.cognito v).currentUser jwt credentials = .error (status, detail) := by
  cases credentials with
  | none => exact .inr ⟨401, _, by simp, rfl⟩
  | some token =>
    rcases hsubject : v.subject jwt token with e | u
    · right
      simp only [App.currentUser, hsubject]
      cases e <;> simp
    · exact .inl ⟨token, u, rfl, hsubject, by simp [App.currentUser, hsubject]⟩

end Verifier

section Runs
variable {S : Services} {v : CognitoVerifier} {u : String} {w w' : World} {a : HttpRequest Key} (ag : Agent)

/-- Let in as `u`, a request is served as that of `u`. -/
theorem respond_admitted (h : (App.cognito v).admits u a) (w : World) :
    (App.cognito v).respond ag S a w = ag.serve S (some u) a.request (w.given a.input) ∧
      ∃ token, a.credentials = some token ∧ v.Grants a.jwt token u := by
  unfold App.admits at h
  obtain ⟨token, s, htoken, hsubject, hcurrent⟩ | ⟨status, detail, -, hcurrent⟩ :=
    currentUser_cognito v a.jwt a.credentials
  · rw [hcurrent] at h
    obtain rfl : s = u := of_decide_eq_true h
    exact ⟨by rw [App.respond, hcurrent], token, htoken, grants_subject hsubject⟩
  · rw [hcurrent] at h
    cases h

/-- Else it is turned away, or served as that of someone else. -/
theorem respond_other (h : ¬ (App.cognito v).admits u a) :
    (∃ s, s ≠ u ∧ ∀ w, (App.cognito v).respond ag S a w = ag.serve S (some s) a.request (w.given a.input)) ∨
      ∃ status detail, status ∈ [401, 500, 503] ∧ ∀ w, (App.cognito v).respond ag S a w =
        (.error status detail, w) := by
  unfold App.admits at h
  obtain ⟨token, s, -, -, hcurrent⟩ | ⟨status, detail, hstatus, hcurrent⟩ := currentUser_cognito v a.jwt a.credentials
  · rw [hcurrent] at h
    exact .inl ⟨s, fun hs => h (decide_eq_true hs), fun w => by rw [App.respond, hcurrent]⟩
  · exact .inr ⟨status, detail, hstatus, fun w => by rw [App.respond, hcurrent]⟩

theorem Alike.respond_other (hsha : Function.Injective Host.sha256) (ha : ¬ (App.cognito v).admits u a)
    (h : Alike S (View.of u) w w') : Alike S (View.of u) ((App.cognito v).respond ag S a w).2 w' := by
  obtain ⟨s, hs, hserve⟩ | ⟨status, detail, -, herror⟩ := Engram.respond_other ag ha
  · have hgiven : Alike S (View.of u) (w.given a.input) w' :=
      ⟨h.store, h.checkpoints, h.matched.congr (fun _ => rfl), h.matched', h.sound, h.sound'⟩
    rw [hserve]
    exact hgiven.request_other ag hsha hs a.request
  · rw [herror]
    exact h

theorem Alike.respond_admitted (ha : (App.cognito v).admits u a) (h : Alike S (View.of u) w w') :
    ((App.cognito v).respond ag S a w).1 = ((App.cognito v).respond ag S a w').1 ∧
      Alike S (View.of u) ((App.cognito v).respond ag S a w).2 ((App.cognito v).respond ag S a w').2 := by
  rw [(Engram.respond_admitted ag ha w).1, (Engram.respond_admitted ag ha w').1]
  exact (h.given a.input).request_own ag ⟨rfl, rfl⟩ a.request

end Runs

/-- A server with accounts, and any requests with any credentials, whatever PyJWT
answers. Without all requests but those let in as `u`, these are answered the
same and the data of `u` is the same. Each of them has an access token of this
app's that was signed for `u`; and who is not let in is turned away at once. -/
theorem signed_in_isolated (hsha : Function.Injective Host.sha256) {settings : AuthSettings}
    (hmode : settings.authMode = .cognito) {app : App} (hstart : App.start settings = .ok app) (ag : Agent)
    (S : Services) (u : String) (requests : List (HttpRequest Key)) :
    ∃ v, app = .cognito v ∧ CognitoVerifier.init settings = .ok v ∧
      List.Forall₂ (fun r r' => r.1 = r'.1 ∧ r.2.1 = r'.2.1 ∧ (∀ ns, ns.user = u → r.2.2.store ns = r'.2.2.store ns) ∧
          ∀ t, r.2.2.checkpoints (checkpointKey u t) = r'.2.2.checkpoints (checkpointKey u t))
        ((Unwinding.results (app.respond ag S) Backend.empty requests).filter (fun r => app.admits u r.1))
        (Unwinding.results (app.respond ag S) Backend.empty (requests.filter (app.admits u))) ∧
      (∀ ns, ns.user = u → (Unwinding.after (app.respond ag S) Backend.empty requests).store ns =
        (Unwinding.after (app.respond ag S) Backend.empty (requests.filter (app.admits u))).store ns) ∧
      (∀ t, (Unwinding.after (app.respond ag S) Backend.empty requests).checkpoints (checkpointKey u t) =
        (Unwinding.after (app.respond ag S) Backend.empty
          (requests.filter (app.admits u))).checkpoints (checkpointKey u t)) ∧
      (∀ a : HttpRequest Key, app.admits u a → ∃ token, a.credentials = some token ∧ v.Grants a.jwt token u) ∧
      ∀ a : HttpRequest Key, (∀ s, ¬ app.admits s a) → ∃ status detail, status ∈ [401, 500, 503] ∧
        ∀ w, app.respond ag S a w = (.error status detail, w) := by
  obtain ⟨v, hinit, rfl⟩ : ∃ v, CognitoVerifier.init settings = .ok v ∧ App.cognito v = app := by
    unfold App.start at hstart
    rw [hmode] at hstart
    cases hinit : CognitoVerifier.init settings with
    | error =>
      rw [hinit] at hstart
      cases hstart
    | ok v =>
      rw [hinit] at hstart
      exact ⟨v, rfl, Except.ok.inj hstart⟩
  have herased : ∀ (a : HttpRequest Key) (w w' : World), (!(App.cognito v).admits u a) = true →
      Alike S (View.of u) w w' → Alike S (View.of u) ((App.cognito v).respond ag S a w).2 w' := by
    intro a w w' ha h
    exact h.respond_other ag hsha (by simpa using ha)
  have hkept : ∀ (a : HttpRequest Key) (w w' : World), (!(App.cognito v).admits u a) = false →
      Alike S (View.of u) w w' →
      ((App.cognito v).respond ag S a w).1 = ((App.cognito v).respond ag S a w').1 ∧
        Alike S (View.of u) ((App.cognito v).respond ag S a w).2 ((App.cognito v).respond ag S a w').2 := by
    intro a w w' ha h
    exact h.respond_admitted ag (by simpa using ha)
  have hempty := Alike.refl S (View.of u) matched_empty (sound_empty S)
  have hruns := Unwinding.purge (O := Eq) herased hkept hempty requests
  have hend := Unwinding.purge_after herased (fun a w w' ha h => (hkept a w w' ha h).2) hempty requests
  simp only [Bool.not_not] at hruns hend
  refine ⟨v, rfl, hinit, hruns.imp (fun r r' h => ⟨h.1, h.2.1, h.2.2.store, fun t => h.2.2.checkpoints _ ⟨t, rfl⟩⟩),
    hend.store, fun t => hend.checkpoints _ ⟨t, rfl⟩,
    fun a ha => (respond_admitted (S := S) ag ha Backend.empty).2, fun a ha => ?_⟩
  obtain ⟨token, s, htoken, hsubject, hcurrent⟩ | ⟨status, detail, hstatus, hcurrent⟩ :=
    currentUser_cognito v a.jwt a.credentials
  · exact absurd (by simp [App.admits, hcurrent]) (ha s)
  · exact ⟨status, detail, hstatus, fun w => by rw [App.respond, hcurrent]⟩

end Engram

/-! ## A forged token -/

namespace Engram

open Backend

attribute [local instance] ascii

/-- An access token of alice's for this app, as the pool signed it. -/
def aliceToken : String :=
  "eyJhbGciOiJSUzI1NiIsImtpZCI6ImtleSJ9." ++
  "eyJpc3MiOiJodHRwczovL2NvZ25pdG8taWRwLmV1LmFtYXpvbmF3cy5jb20vZXVfUG9vbCIsImNsaWVudF9pZCI6ImFwcCIsInRva2VuX3VzZSI6" ++
  "ImFjY2VzcyIsInN1YiI6ImFsaWNlIiwiZXhwIjo5LCJpYXQiOjB9.c2lnbmVk"

/-- The same header and claims under another signature. -/
def forgedToken : String :=
  "eyJhbGciOiJSUzI1NiIsImtpZCI6ImtleSJ9." ++
  "eyJpc3MiOiJodHRwczovL2NvZ25pdG8taWRwLmV1LmFtYXpvbmF3cy5jb20vZXVfUG9vbCIsImNsaWVudF9pZCI6ImFwcCIsInRva2VuX3VzZSI6" ++
  "ImFjY2VzcyIsInN1YiI6ImFsaWNlIiwiZXhwIjo5LCJpYXQiOjB9.Zm9yZ2Vk"

def poolIssuer : String := "https://cognito-idp.eu.amazonaws.com/eu_Pool"

/-- What both say. -/
def aliceClaims : Claims := fun name =>
  if name = "iss" then some (.str poolIssuer)
  else if name = "client_id" then some (.str "app")
  else if name = "token_use" then some (.str "access")
  else if name = "sub" then some (.str "alice")
  else if name = "exp" ∨ name = "iat" then some .other
  else none

/-- The pool has signed `aliceToken`, and nothing else. -/
def signing : Jwt Unit where
  Signed _ token claims := token = aliceToken ∧ claims = aliceClaims
  getUnverifiedHeader token :=
    if token = aliceToken ∨ token = forgedToken then
      .ok (fun name => if name = "alg" then some (.str "RS256") else if name = "kid" then some (.str "key") else none)
    else .error .invalidToken
  getSigningKeyFromJwt _ := .ok ()
  decode token _ issuer := if token = aliceToken ∧ issuer = poolIssuer then .ok aliceClaims else .error .invalidToken
  decode_signed h := by
    split at h
    · next htoken => exact ⟨htoken.1, (Except.ok.inj h).symm⟩
    · cases h
  decode_issuer h := by
    split at h
    · next htoken => rw [← Except.ok.inj h, htoken.2, aliceClaims, if_pos rfl]
    · cases h
  decode_required h name hname := by
    split at h
    · rw [← Except.ok.inj h]
      simp only [requiredClaims, List.mem_cons, List.not_mem_nil, or_false] at hname
      rcases hname with rfl | rfl | rfl | rfl | rfl | rfl <;> simp [aliceClaims]
    · cases h

def pool : AuthSettings := ⟨.cognito, "eu_Pool", "app"⟩

def poolVerifier : CognitoVerifier := ⟨poolIssuer, "app"⟩

/-- Alice chats, someone with a forged token and someone without one ask to
forget her, and she reads her thread. -/
def forgery : List (HttpRequest Unit) :=
  [⟨some aliceToken, signing, .chat "alice" "hi" "t1", .at 1 'a'⟩,
    ⟨some forgedToken, signing, .forgetUser "alice", .at 2 'b'⟩,
    ⟨none, signing, .forgetUser "alice", .at 3 'c'⟩, ⟨some aliceToken, signing, .threadHistory "alice" "t1", .at 4 'd'⟩]

/-- Her own requests. -/
def forgeryOwn : List (HttpRequest Unit) :=
  [⟨some aliceToken, signing, .chat "alice" "hi" "t1", .at 1 'a'⟩,
    ⟨some aliceToken, signing, .threadHistory "alice" "t1", .at 4 'd'⟩]

/-- The state after the requests. -/
def pooled (requests : List (HttpRequest Unit)) : World :=
  Unwinding.after ((App.cognito poolVerifier).respond ⟨⟨5⟩, .manager lenient, true⟩ teamBackend) Backend.empty requests

/-- Alice is served as if only her requests had come, and her thread is there. -/
theorem signed_in_isolated_forgery :
    (pooled forgery).store (.memories "alice") = (pooled forgeryOwn).store (.memories "alice") ∧
      (pooled forgery).store (.threads "alice") = (pooled forgeryOwn).store (.threads "alice") ∧
      (pooled forgery).checkpoints (checkpointKey "alice" "t1") =
        (pooled forgeryOwn).checkpoints (checkpointKey "alice" "t1") ∧
      (pooled forgeryOwn).checkpoints (checkpointKey "alice" "t1") ≠ none := by
  have hmode : pool.authMode = .cognito := rfl
  have hstart : App.start pool = .ok (.cognito poolVerifier) := rfl
  have hadmitted : forgery.map ((App.cognito poolVerifier).admits "alice") = [true, false, false, true] := by
    decide +kernel
  have hown : forgery.filter ((App.cognito poolVerifier).admits "alice") = forgeryOwn := by
    simp only [forgery, List.map_cons, List.map_nil, List.cons.injEq, and_true] at hadmitted
    obtain ⟨hchat, hforged, hnone, hhistory⟩ := hadmitted
    simp only [forgery, forgeryOwn, List.filter_cons, hchat, hforged, hnone, hhistory, List.filter_nil, if_true]
    rfl
  obtain ⟨v, -, -, -, hafter, htranscripts, -⟩ :=
    signed_in_isolated digest_injective hmode hstart ⟨⟨5⟩, .manager lenient, true⟩ teamBackend "alice" forgery
  have hthread : (pooled forgeryOwn).checkpoints (checkpointKey "alice" "t1") ≠ none := by decide +kernel
  rw [hown] at hafter htranscripts
  unfold pooled at hthread ⊢
  exact ⟨hafter (.memories "alice") rfl, hafter (.threads "alice") rfl, htranscripts "t1", hthread⟩

end Engram
