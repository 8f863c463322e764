/-
From the command line to the mount, `main.c`.

The program looks for the URL among the arguments, has libcurl take it apart and asks the
server whether it is synced.  It mounts when all of this succeeds and ends before it mounts
anything when not; where libcurl refuses a URL that the pattern has let through, or finds no
path or no port in it, the program runs into a null pointer or over a buffer instead.
-/
import SiaFS.Options

namespace SiaFS
namespace Startup

open Json

/-! ## The state of the server -/

/-- `GET api/bus/consensus/state`, with what the server answers; `opt.L1` is still null. -/
def sia_bus_consensus_state_json (server : CStr → Option Body) (opt : SiaCfg) :
    Except Fault (Option Body) :=
  match opt.unauthenticated_url with
  | none => .error .nullPointer
  | some url => .ok (server (url ++ lit "api/bus/consensus/state"))

/-- A member of the reply, if that is a document. -/
def consensusField (json_payload : Option Body) (name : String) : Option Json :=
  (cJSON_Parse json_payload).bind (cJSON_GetObjectItemCaseSensitive · (lit name))

def cJSON_IsTrue : Option Json → Nat
  | some (.bool true) => 1
  | _ => 0

def sia_bus_consensus_state_synced (server : CStr → Option Body) (opt : SiaCfg) :
    Except Fault Nat := do
  let json_payload ← sia_bus_consensus_state_json server opt
  pure (cJSON_IsTrue (consensusField json_payload "synced"))

def sia_bus_consensus_state_blockheight (server : CStr → Option Body) (opt : SiaCfg) :
    Except Fault Nat := do
  let json_payload ← sia_bus_consensus_state_json server opt
  pure (((consensusField json_payload "blockHeight").bind number?).elim 0 u32)

def sia_bus_consensus_state_lastblocktime (server : CStr → Option Body) (opt : SiaCfg) :
    Except Fault (Option CStr) := do
  let json_payload ← sia_bus_consensus_state_json server opt
  pure ((consensusField json_payload "lastBlockTime").bind valuestring)

/-! ## The start -/

inductive Outcome
  /-- `EXIT_FAILURE`, with nothing mounted. -/
  | exit_failure
  /-- `fuse_main` is called with the arguments passed on; the height and the time of the last
  block were printed. -/
  | fuse_main (opt : SiaCfg) (args : List CStr) (bh : Nat) (lbt : Option CStr)

/-- `main` from `parse_url` on, with the server at the three times it is asked. -/
def start (c : Curl) (server : Fin 3 → CStr → Option Body) (opt : SiaCfg) (outargs : List CStr)
    (url : CStr) : Except Fault Outcome := do
  let (_, opt) ← parse_url c opt url
  if (← sia_bus_consensus_state_synced (server 0) opt) = 1 then
    let bh ← sia_bus_consensus_state_blockheight (server 1) opt
    let lbt ← sia_bus_consensus_state_lastblocktime (server 2) opt
    pure (.fuse_main opt outargs bh lbt)
  else pure .exit_failure

/-- The arguments as `fuse_opt_parse` hands them out. -/
def main (c : Curl) (server : Fin 3 → CStr → Option Body) (args : List (CStr × OptKey)) :
    Except Fault Outcome :=
  let (opt, outargs) := args.foldl siafs_opt_proc (defaultOptions, [])
  match opt.url with
  | none => .ok .exit_failure
  | some url => start c server opt outargs url

/-! ## What the arguments come to -/

/-- An argument that is no option. -/
def operand (arg : CStr × OptKey) : Option CStr :=
  match arg.2 with
  | .FUSE_OPT_KEY_OPT => none
  | .FUSE_OPT_KEY_NONOPT => some arg.1

/-- The number of handles that an argument asks for. -/
def handles (arg : CStr × OptKey) : Option Nat :=
  match arg.2 with
  | .FUSE_OPT_KEY_OPT =>
    if (lit "maxhandle=").isPrefixOf arg.1 then
      some (u32 (strtol (arg.1.drop (lit "maxhandle=").length)))
    else none
  | .FUSE_OPT_KEY_NONOPT => none

def asksVerbose (arg : CStr × OptKey) : Bool :=
  match arg.2 with
  | .FUSE_OPT_KEY_OPT => arg.1 == lit "-v"
  | .FUSE_OPT_KEY_NONOPT => false

/-- The first operand that the pattern accepts. -/
def firstUrl (args : List (CStr × OptKey)) : Option CStr :=
  (args.filterMap operand).find? fun arg => validate_url arg = 0

/-- The options that a command line stands for: the first URL, and of the numbers of handles
the last. -/
def requested (opt : SiaCfg) (args : List (CStr × OptKey)) : SiaCfg :=
  { opt with
    url := opt.url.or (firstUrl args)
    verbose := opt.verbose || args.any asksVerbose
    maxhandle := ((args.filterMap handles).getLast?).getD opt.maxhandle }

section Arguments

variable {opt : SiaCfg} {outargs : List CStr} {args : List (CStr × OptKey)}

theorem requested_cons (opt : SiaCfg) (arg : CStr × OptKey) (args : List (CStr × OptKey)) :
    requested opt (arg :: args) = requested (requested opt [arg]) args := by
  have hurl : opt.url.or (firstUrl (arg :: args)) =
      (opt.url.or (firstUrl [arg])).or (firstUrl args) := by
    rw [Option.or_assoc]
    congr 1
    unfold firstUrl
    rw [← List.singleton_append, List.filterMap_append, List.find?_append]
  have hhandles : (((arg :: args).filterMap handles).getLast?).getD opt.maxhandle =
      ((args.filterMap handles).getLast?).getD
        ((([arg].filterMap handles).getLast?).getD opt.maxhandle) := by
    rw [← List.singleton_append, List.filterMap_append, List.getLast?_append]
    cases (args.filterMap handles).getLast? <;> rfl
  unfold requested
  rw [hurl, hhandles, List.any_cons]
  simp [Bool.or_assoc]

/-- One argument. -/
theorem siafs_opt_proc_requested (arg : CStr × OptKey) :
    (siafs_opt_proc (opt, outargs) arg).1 = requested opt [arg] := by
  obtain ⟨arg, key⟩ := arg
  cases key with
  | FUSE_OPT_KEY_OPT =>
    have hurl : opt.url.or (firstUrl [(arg, .FUSE_OPT_KEY_OPT)]) = opt.url := Option.or_none
    rw [siafs_opt_proc, requested, hurl]
    by_cases hv : arg = lit "-v"
    · subst hv
      rw [if_pos rfl]
      simp [asksVerbose, handles, show (lit "maxhandle=").isPrefixOf (lit "-v") = false by decide]
    · have hverbose : (arg == lit "-v") = false := by simpa using hv
      rw [if_neg hv]
      by_cases hm : (lit "maxhandle=").isPrefixOf arg = true
      · simp [hm, hv, asksVerbose, handles]
      · simp [hm, hverbose, asksVerbose, handles]
  | FUSE_OPT_KEY_NONOPT =>
    rw [siafs_opt_proc, requested]
    have hfirst : firstUrl [(arg, .FUSE_OPT_KEY_NONOPT)] =
        if validate_url arg = 0 then some arg else none := by
      show List.find? _ [arg] = _
      rw [List.find?_cons, List.find?_nil]
      by_cases hurl : validate_url arg = 0 <;> simp [hurl]
    rw [hfirst]
    cases hurl : opt.url with
    | none => simp [asksVerbose, handles]
    | some url =>
      simp only [reduceCtorEq, if_false, Option.some_or]
      simp [asksVerbose, handles, ← hurl]

theorem foldl_requested (args : List (CStr × OptKey)) (opt : SiaCfg) (outargs : List CStr) :
    (args.foldl siafs_opt_proc (opt, outargs)).1 = requested opt args := by
  induction args generalizing opt outargs with
  | nil => simp [requested, firstUrl]
  | cons arg args ih =>
    rw [List.foldl_cons, requested_cons]
    rcases hstep : siafs_opt_proc (opt, outargs) arg with ⟨opt', outargs'⟩
    have hopt : (siafs_opt_proc (opt, outargs) arg).1 = requested opt [arg] :=
      siafs_opt_proc_requested arg
    rw [hstep] at hopt
    rw [ih, ← hopt]

end Arguments

/-! ## When the program mounts -/

/-- The options after a URL with a path and a port. -/
def parsedOptions (c : Curl) (opt : SiaCfg) (h : CurlUrl) (port : CStr) : SiaCfg :=
  { opt with
    scheme := h.scheme
    host := h.host
    user := h.user
    password := h.password
    port_s := some port
    port := u32 (strtol port)
    bucket := some h.pathPart
    unauthenticated_url := some (c.curl_url_get h.base) }

/-- The server says that it is synced. -/
def SaysSynced (server : CStr → Option Body) (base : CStr) : Prop :=
  consensusField (server (base ++ lit "api/bus/consensus/state")) "synced" = some (.bool true)

section Main

variable {c : Curl} {server : Fin 3 → CStr → Option Body} {args : List (CStr × OptKey)}

theorem cJSON_IsTrue_eq_one_iff (json : Option Json) :
    cJSON_IsTrue json = 1 ↔ json = some (.bool true) := by
  unfold cJSON_IsTrue
  split
  · exact iff_of_true rfl rfl
  · rename_i hne
    exact iff_of_false Nat.zero_ne_one hne

/-- The server is asked under the base of the URL. -/
theorem state_json_ok {server : CStr → Option Body} {opt : SiaCfg} {base : CStr}
    (h : opt.unauthenticated_url = some base) :
    sia_bus_consensus_state_json server opt =
      .ok (server (base ++ lit "api/bus/consensus/state")) := by
  rw [sia_bus_consensus_state_json, h]

/-- Without the base the URL of the request is copied from a null pointer. -/
theorem state_json_unparsed {server : CStr → Option Body} {opt : SiaCfg}
    (h : opt.unauthenticated_url = none) :
    sia_bus_consensus_state_json server opt = .error .nullPointer := by
  rw [sia_bus_consensus_state_json, h]

theorem main_no_url (hurl : firstUrl args = none) : main c server args = .ok .exit_failure := by
  have hopt : (args.foldl siafs_opt_proc (defaultOptions, [])).1.url = none := by
    rw [foldl_requested]
    exact hurl
  rw [main]
  split
  rename_i heq
  rw [heq] at hopt
  rw [hopt]

theorem main_first {url : CStr} (hurl : firstUrl args = some url) :
    main c server args = start c server (requested defaultOptions args)
      (args.foldl siafs_opt_proc (defaultOptions, [])).2 url := by
  have hopt : (args.foldl siafs_opt_proc (defaultOptions, [])).1.url = some url := by
    rw [foldl_requested]
    exact hurl
  rw [main, ← foldl_requested args defaultOptions []]
  split
  rename_i heq
  rw [heq] at hopt ⊢
  rw [hopt]

/-- A URL that libcurl refuses, or finds no path or no port in. -/
def Unusable (c : Curl) (url : CStr) : Prop :=
  ∀ h, c.curl_url_set url = some h → h.pathPart = lit "/" ∨ h.port = none

theorem usable_of_not {url : CStr} (h : ¬ Unusable c url) : ∃ handle port,
    c.curl_url_set url = some handle ∧ handle.pathPart ≠ lit "/" ∧ handle.port = some port := by
  unfold Unusable at h
  push Not at h
  obtain ⟨handle, hset, hroot, hport⟩ := h
  obtain ⟨port, hport⟩ := Option.ne_none_iff_exists'.mp hport
  exact ⟨handle, port, hset, hroot, hport⟩

theorem unparsed_requested (args : List (CStr × OptKey)) :
    (requested defaultOptions args).unauthenticated_url = none :=
  rfl

section Start

variable {opt : SiaCfg} {outargs : List CStr} {url : CStr}

theorem start_unusable (h : Unusable c url) (hopt : opt.unauthenticated_url = none) :
    ∃ fault, start c server opt outargs url = .error fault := by
  rw [start]
  cases hset : c.curl_url_set url with
  | none =>
    rw [parse_url_refused hset]
    refine ⟨.nullPointer, ?_⟩
    show (sia_bus_consensus_state_synced (server 0) opt >>= _) = _
    rw [sia_bus_consensus_state_synced, state_json_unparsed hopt]
    rfl
  | some handle =>
    by_cases hroot : handle.pathPart = lit "/"
    · rw [parse_url_root hset hroot]
      exact ⟨.outOfBounds, rfl⟩
    · rw [parse_url_no_port hset hroot ((h handle hset).resolve_left hroot)]
      exact ⟨.nullPointer, rfl⟩

/-- With a path and a port it is for the server to say. -/
theorem start_usable {port : CStr} {h : CurlUrl} (hset : c.curl_url_set url = some h)
    (hroot : h.pathPart ≠ lit "/") (hport : h.port = some port) :
    (SaysSynced (server 0) (c.curl_url_get h.base) ∧ ∃ bh lbt,
      start c server opt outargs url =
        .ok (.fuse_main (parsedOptions c opt h port) outargs bh lbt)) ∨
    (¬ SaysSynced (server 0) (c.curl_url_get h.base) ∧
      start c server opt outargs url = .ok .exit_failure) := by
  have hparsed : parse_url c opt url = .ok (CURLUE_OK, parsedOptions c opt h port) :=
    parse_url_parts hset hroot hport
  have hjson : ∀ i, sia_bus_consensus_state_json (server i) (parsedOptions c opt h port) =
      .ok (server i (c.curl_url_get h.base ++ lit "api/bus/consensus/state")) :=
    fun i => state_json_ok rfl
  rw [start, hparsed]
  dsimp only [bind, Except.bind]
  rw [sia_bus_consensus_state_synced, sia_bus_consensus_state_blockheight,
    sia_bus_consensus_state_lastblocktime, hjson, hjson, hjson]
  by_cases hsynced : SaysSynced (server 0) (c.curl_url_get h.base)
  · exact .inl ⟨hsynced, _, _, if_pos ((cJSON_IsTrue_eq_one_iff _).mpr hsynced)⟩
  · exact .inr ⟨hsynced, if_neg (mt (cJSON_IsTrue_eq_one_iff _).mp hsynced)⟩

end Start

/-- The three ways that a command line goes. -/
theorem main_outcome (c : Curl) (server : Fin 3 → CStr → Option Body)
    (args : List (CStr × OptKey)) :
    main c server args = .ok .exit_failure ∨
    (∃ url fault, firstUrl args = some url ∧ Unusable c url ∧
      main c server args = .error fault) ∨
    ∃ url h port outargs bh lbt, firstUrl args = some url ∧ c.curl_url_set url = some h ∧
      h.pathPart ≠ lit "/" ∧ h.port = some port ∧ SaysSynced (server 0) (c.curl_url_get h.base) ∧
      main c server args = .ok (.fuse_main
        (parsedOptions c (requested defaultOptions args) h port) outargs bh lbt) := by
  cases hurl : firstUrl args with
  | none => exact .inl (main_no_url hurl)
  | some url =>
    rw [main_first hurl]
    by_cases hparts : Unusable c url
    · obtain ⟨fault, hfault⟩ := start_unusable hparts (unparsed_requested args)
      exact .inr (.inl ⟨url, fault, rfl, hparts, hfault⟩)
    · obtain ⟨h, port, hset, hroot, hport⟩ := usable_of_not hparts
      rcases start_usable hset hroot hport with ⟨hsynced, bh, lbt, hmount⟩ | ⟨-, hexit⟩
      · exact .inr (.inr ⟨url, h, port, _, bh, lbt, rfl, hset, hroot, hport, hsynced, hmount⟩)
      · exact .inl hexit

/-- The program mounts exactly when libcurl finds a path and a port in the first operand that
the pattern accepts and the server of that URL says that it is synced, and it runs into a fault
exactly when there is such an operand and libcurl does not. -/
theorem main_mounts (c : Curl) (server : Fin 3 → CStr → Option Body)
    (args : List (CStr × OptKey)) :
    (∀ opt, (∃ outargs bh lbt, main c server args = .ok (.fuse_main opt outargs bh lbt)) ↔
      ∃ url h port, firstUrl args = some url ∧ c.curl_url_set url = some h ∧
        h.pathPart ≠ lit "/" ∧ h.port = some port ∧
        SaysSynced (server 0) (c.curl_url_get h.base) ∧
        opt = parsedOptions c (requested defaultOptions args) h port) ∧
    ((∃ fault, main c server args = .error fault) ↔
      ∃ url, firstUrl args = some url ∧ Unusable c url) := by
  refine ⟨fun opt => ⟨?_, ?_⟩, ?_, ?_⟩
  · rintro ⟨outargs, bh, lbt, hmount⟩
    rcases main_outcome c server args with hexit | ⟨_, _, -, -, hfault⟩ |
      ⟨url, h, port, _, _, _, hurl, hset, hroot, hport, hsynced, hmain⟩
    · rw [hexit] at hmount
      cases hmount
    · rw [hfault] at hmount
      cases hmount
    · rw [hmain] at hmount
      cases hmount
      exact ⟨url, h, port, hurl, hset, hroot, hport, hsynced, rfl⟩
  · rintro ⟨url, h, port, hurl, hset, hroot, hport, hsynced, rfl⟩
    rw [main_first hurl]
    rcases start_usable hset hroot hport with ⟨-, bh, lbt, hmount⟩ | ⟨hunsynced, -⟩
    · exact ⟨_, bh, lbt, hmount⟩
    · exact absurd hsynced hunsynced
  · rintro ⟨fault, hfault⟩
    rcases main_outcome c server args with hexit | ⟨url, _, hurl, hparts, -⟩ |
      ⟨_, _, _, _, _, _, -, -, -, -, -, hmount⟩
    · rw [hexit] at hfault
      cases hfault
    · exact ⟨url, hurl, hparts⟩
    · rw [hmount] at hfault
      cases hfault
  · rintro ⟨url, hurl, hparts⟩
    rw [main_first hurl]
    exact start_unusable hparts (unparsed_requested args)

end Main

end Startup
end SiaFS
