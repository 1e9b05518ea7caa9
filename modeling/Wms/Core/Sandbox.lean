import Wms.Core.Budget
import Wms.Core.JobAdapter

/-!
# The directory of one job

The requests of a job, its replannings and the copies of it that were
delivered, on one directory. Requests and replannings are handled one at a
time, each to its end. A copy starts the user's job only if it can remove the
token its description names, and it may try at any later time or never.

The LB is as for the retry counts, and the planner puts the URL of the token
into the description as the job adapter resolves it. A file operation has the
outcome the directory implies, or it fails without an effect. What is answered
to all the other calls is left open.
-/

namespace Wms.Core.Sandbox

open Wms.Lib Wms.Core

/-- A copy that was delivered: the token its description names, and the token
files there were at that moment. -/
structure Copy where
  token : Text
  files : List Text
  started : Bool

/-- What the requests for a job share. -/
structure Site where
  lb : List LbEvent
  /-- The entries of the job's directory. -/
  dir : List Text
  /-- The requests of the replanner. -/
  inbox : List Jdl
  copies : List Copy
  /-- The copies that have started since the last deep resubmission. -/
  starts : ℕ

variable (cfg : Config)

/-- The token files of a directory. -/
def tokens (dir : List Text) : List Text := dir.filter (isTokenFile cfg)

/-- A file that is there is not made again. -/
def place (leaf : Text) (dir : List Text) : List Text :=
  if leaf ∈ dir then dir else leaf :: dir

/-- The outcome of a renaming: a file that is not there, or a failure for
another reason, or a success, which leaves the error number as it was. -/
def renamed (dir : List Text) (old : Text) (r : Renamed) : Renamed :=
  if old ∉ dir then ⟨true, .enoent⟩
  else if r.failed && r.errno ≠ .enoent then r
  else ⟨false, r.errno⟩

/-- A pass over the directory comes to its end or stops with an error; the
order of the entries is open. -/
def listed (dir : List Text) (r : Listing) : Listing :=
  match r.error with
  | some e => ⟨r.leaves, some e⟩
  | none => if r.leaves.isPerm dir then r else ⟨dir, none⟩

/-- How an exception of the adapter reaches the processor. -/
def adapterError : AdapterError → Exn
  | .invalidAttributeValue value => .helperError (String.ofList value)
  | .cannotCreateJobWrapper what => .helperError (String.ofList what)

/-- A description planned, with the URL of its token. -/
def planned (localHostname : Text) (ad : Jdl) :
    Except Exn Planned → Except Exn Planned
  | .error e => .error e
  | .ok p =>
      match resolveToken cfg localHostname ad with
      | .ok token => .ok { p with reallyRunningToken := token }
      | .error e => .error (adapterError e)

/-- The answer to a call; `loaded` is the state of the request. -/
def answer (localHostname : Text) (loaded : Option SubmitState) (s : Site) :
    (c : Call) → Answer c → Answer c
  | .load, r => loaded.getD r
  | .query q, r => lbAnswer s.lb q r
  | .listSandbox, r => listed s.dir r
  | .existsFile leaf, _ => decide (leaf ∈ s.dir)
  | .rename old _, r => renamed s.dir old r
  | .plan ad, r => planned cfg localHostname ad r
  | _, r => r

/-- What each call changes. -/
def effect (s : Site) : (c : Call) → Answer c → Site
  | .log e, _ =>
      { s with
        lb := s.lb ++ [logged e]
        starts := if Budget.isWmDeep (logged e) then 0 else s.starts }
  | .rename old new, r =>
      if r.failed then s else { s with dir := place new (s.dir.erase old) }
  | .createToken leaf, r => if r then { s with dir := place leaf s.dir } else s
  | .unlink leaf, _ => { s with dir := s.dir.erase leaf }
  | .deliver _ request, .ok () =>
      { s with
        copies := s.copies ++
          [⟨request.jobAd.reallyRunningToken, tokens cfg s.dir, false⟩] }
  | .deliverToWm ad, .ok () => { s with inbox := s.inbox ++ [ad] }
  | _, _ => s

/-- The L&B and the directory as the world of a request. -/
def siteWorld (localHostname : Text) (loaded : Option SubmitState) :
    Proc.World Site Call Answer := fun s c r =>
  let a := answer cfg localHostname loaded s c r
  (a, effect cfg s c a)

/-- `start` is a copy that removes its token, `removed` a file that goes for
another reason. -/
inductive Label where
  | registered (timestamp : ℤ) (queue reason : String)
  | component (e : LbEvent)
  | process (state : SubmitState) (o : Proc.Oracle Call Answer)
  | replan (o : Proc.Oracle Call Answer)
  | start (i : ℕ)
  | removed (leaf : Text)

variable (localHostname : Text) (jdl : Jdl)

/-- A request of the job: a submission, the replanner's included, or a
resubmission, with the job's input sandbox and shallow resubmission on. -/
def isRequest (state : SubmitState) : Bool :=
  (state.command = .jobsubmit || state.command = .jobresubmit) &&
    shallowResubmissionIsEnabled state.ad &&
    state.ad.inputSandboxPath = jdl.inputSandboxPath

/-- The state a complete run leaves. -/
def siteAfter (loaded : Option SubmitState) (o : Proc.Oracle Call Answer)
    (s : Site) (p : WmProc Unit) : Site :=
  (Proc.exec (siteWorld cfg localHostname loaded) o 0 s p).state

/-- The file a copy's token names, if it is there. -/
def namedToken (s : Site) (copy : Copy) : Option Text :=
  (tokens cfg s.dir).find? fun leaf =>
    pathOfUrl copy.token = fullPath cfg leaf

/-- The job is registered, another component logs, or a request is processed. -/
def next (s : Site) : Label → Option Site
  | .registered timestamp queue reason =>
      some { s with
        lb := s.lb ++
          [⟨.networkServer, timestamp, .enQueued .ok queue (.ad jdl) reason⟩] }
  | .component e =>
      if Budget.isForeign e then some { s with lb := s.lb ++ [e] } else none
  | .process state o =>
      if isRequest jdl state then
        some (siteAfter cfg localHostname (some state) o s
          (submitProcessor cfg fun _ => pure ()))
      else none
  | .replan o => some (siteAfter cfg localHostname none o s (replan cfg))
  | .start i =>
      match s.copies[i]? with
      | none => none
      | some copy =>
          if copy.started then none
          else
            (namedToken cfg s copy).map fun leaf =>
              { s with
                dir := s.dir.erase leaf
                copies := s.copies.set i { copy with started := true }
                starts := s.starts + 1 }
  | .removed leaf => some { s with dir := s.dir.erase leaf }

/-- Nothing has been done yet, in a directory with some files. -/
def init (dir : List Text) : Site where
  lb := []
  dir := dir
  inbox := []
  copies := []
  starts := 0

/-! ## The token and its number -/

/-- The final name of the token with a number. -/
def tok (n : ℕ) : Text := getReallyrunningToken cfg n

/-- Its temporary name. -/
def tmp (n : ℕ) : Text := tokenTmpFile (tok cfg n)

/-- The largest number up to which a float holds every number. -/
def maxExact : ℕ := 2 ^ 24

/-- What is relied on in the cast: it reads such numbers as they are written,
with or without a dot behind them. -/
def CastExact : Prop :=
  ∀ n ≤ maxExact,
    cfg.lexicalCastFloat (decimal n) = some (n : ℤ) ∧
      cfg.lexicalCastFloat (decimal n ++ ['.']) = some (n : ℤ)

/-- The directory a description has its input sandbox in is the job's. -/
def sandboxOf (ad : Jdl) : Prop :=
  ∀ url, inputUrl localHostname ad.inputSandboxPath = some url →
    url.path = cfg.basePath ++ "/input".toList

/-- A copy that was delivered with one token in the directory, and names
it. -/
def Finds (copy : Copy) : Prop :=
  ∃ leaf, copy.files = [leaf] ∧ pathOfUrl copy.token = fullPath cfg leaf

/-- The description a request works with. -/
def description (state : SubmitState) : Jdl :=
  if state.command = .jobsubmit then state.ad else jdl

/-! ## Steps that go well -/

/-- A renaming of token 0 onto itself does not fail. -/
def renamesToken (s : Site) : Label → Prop
  | .process state o =>
      state.command = .jobsubmit → tok cfg 0 ∈ s.dir →
        ∀ n, (o n (.rename (tmp cfg 0) (tok cfg 0))).failed = false
  | _ => True

/-- The number of the token does not grow beyond what a float holds. -/
def numberFits (s : Site) : Label → Bool
  | .replan _ => !(tok cfg maxExact ∈ s.dir) && !(tmp cfg maxExact ∈ s.dir)
  | _ => true

/-- A submission that finds no token comes before any copy has started. -/
def comesFirst (s : Site) : Label → Bool
  | .process state _ =>
      !(state.command = .jobsubmit && (tokens cfg s.dir).isEmpty &&
        s.starts ≠ 0)
  | _ => true

/-- A request that finds no token has the number 0 in its description, and a
submission finds no temporary token but number 0. -/
def numberedRight (s : Site) : Label → Bool
  | .process state _ =>
      (!(tokens cfg s.dir).isEmpty ||
        (description jdl state).replansCount.getD 0 = 0) &&
      (state.command ≠ .jobsubmit ||
        (tokens cfg s.dir).all fun leaf =>
          leaf.getLast? ≠ some '.' || leaf = tmp cfg 0)
  | _ => true

/-- The condition for one start. -/
def startsOnce (s : Site) (l : Label) : Prop :=
  comesFirst cfg s l = true ∧ numberFits cfg s l = true ∧ renamesToken cfg s l

/-- The condition for copies that find their token. -/
def findsToken (s : Site) (l : Label) : Prop :=
  numberedRight cfg jdl s l = true ∧ numberFits cfg s l = true ∧
    renamesToken cfg s l

end Wms.Core.Sandbox
