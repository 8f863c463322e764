/-
The options of a mount, `main.c`.

An argument that is not an option is the URL of the server when it matches
`URL_REGEX`, which is not anchored at its start and takes all bytes from the dot to
the colon.  libcurl then takes the URL apart, and leaves `NULL` for a part that is
missing.  A string from libcurl is as long as its buffer.
-/
import Mathlib.Data.List.Infix
import SiaFS.Worker.Objects

namespace SiaFS

/-! ## The defaults -/

def SIA_DEFAULT_SCHEME : CStr := lit "http"

def SIA_DEFAUT_USER : Option CStr := none

def SIA_DEFAULT_PASSWORD : Option CStr := none

def SIA_DEFAULT_HOST : CStr := lit "localhost"

def SIA_DEFAULT_PORT : Nat := 9980

def SIA_DEFAULT_PORT_S : CStr := lit "9980"

def SIA_DEFAULT_BUCKET : CStr := lit "default"

/-- The fields of `sia_cfg_t` that come from the command line; a pointer that is `NULL` is
`none`. -/
structure SiaCfg where
  url : Option CStr
  scheme : Option CStr
  host : Option CStr
  user : Option CStr
  password : Option CStr
  port_s : Option CStr
  port : Nat
  bucket : Option CStr
  unauthenticated_url : Option CStr
  verbose : Bool
  maxhandle : Nat

def defaultOptions : SiaCfg where
  url := none
  scheme := some SIA_DEFAULT_SCHEME
  host := some SIA_DEFAULT_HOST
  user := SIA_DEFAUT_USER
  password := SIA_DEFAULT_PASSWORD
  port_s := some SIA_DEFAULT_PORT_S
  port := SIA_DEFAULT_PORT
  bucket := some SIA_DEFAULT_HOST
  unauthenticated_url := none
  verbose := false
  maxhandle := 10

/-! ## The pattern -/

/-- `[a-zA-Z0-9.-:@]`, with the range from the dot to the colon. -/
def isUrlByte (b : UInt8) : Bool :=
  (97 ≤ b && b ≤ 122) || (65 ≤ b && b ≤ 90) || (48 ≤ b && b ≤ 57) || (46 ≤ b && b ≤ 58) || b == 64

/-- `(/[^[:space:]]*)?$` -/
def matchesPath : CStr → Bool
  | [] => true
  | b :: rest => b == slash && rest.all fun b => !isBlank b

/-- `URL_REGEX` from here on. -/
def matchesHere : CStr → Bool
  | [] => false
  | b :: rest => isUrlByte b && (matchesPath rest || matchesHere rest)

def REG_NOMATCH : Nat := 1

def validate_url (url : CStr) : Nat := if url.tails.any matchesHere then 0 else REG_NOMATCH

/-! ## The arguments -/

inductive OptKey
  | FUSE_OPT_KEY_OPT
  | FUSE_OPT_KEY_NONOPT

/-- One argument, with the options so far and the arguments passed on. -/
def siafs_opt_proc (s : SiaCfg × List CStr) (arg : CStr × OptKey) : SiaCfg × List CStr :=
  let (opt, outargs) := s
  match arg with
  | (arg, .FUSE_OPT_KEY_OPT) =>
    if arg = lit "-v" then ({ opt with verbose := true }, outargs)
    else if (lit "maxhandle=").isPrefixOf arg then
      ({ opt with maxhandle := u32 (strtol (arg.drop (lit "maxhandle=").length)) }, outargs)
    else (opt, outargs ++ [arg])
  | (arg, .FUSE_OPT_KEY_NONOPT) =>
    if opt.url = none then
      ({ opt with url := if validate_url arg = 0 then some arg else none }, outargs)
    else (opt, outargs ++ [arg])

/-- The options after the arguments of a command line. -/
def options (args : List (CStr × OptKey)) : SiaCfg :=
  (args.foldl siafs_opt_proc (defaultOptions, [])).1

/-! ## The URL -/

/-- The handle of libcurl for a URL. -/
structure CurlUrl where
  scheme : Option CStr
  host : Option CStr
  user : Option CStr
  password : Option CStr
  port : Option CStr
  path : Option CStr
  query : Option CStr
  fragment : Option CStr

/-- The parts of libcurl that are used. -/
structure Curl where
  /-- `curl_url_set` of a whole URL, without flags. -/
  curl_url_set : CStr → Option CurlUrl
  /-- `curl_url_get` of a whole URL. -/
  curl_url_get : CurlUrl → CStr
  path_slash : ∀ text h path, curl_url_set text = some h → h.path = some path →
    path.head? = some slash

/-- `curl_url_get` of the path, which is a slash when there is none. -/
def CurlUrl.pathPart (h : CurlUrl) : CStr := h.path.getD (lit "/")

/-- The URL without its credentials and its path. -/
def CurlUrl.base (h : CurlUrl) : CurlUrl := { h with user := none, password := none, path := none }

def CURLUE_OK : Nat := 0

/-- `strcpy` over a string from libcurl. -/
def strcpyOver (dst src : CStr) : Except Fault CStr :=
  if src.length ≤ dst.length then .ok src else .error .outOfBounds

def atol : Option CStr → Except Fault Int
  | none => .error .nullPointer
  | some text => .ok (strtol text)

def parse_url (c : Curl) (opt : SiaCfg) (url : CStr) : Except Fault (Nat × SiaCfg) :=
  match c.curl_url_set url with
  | none => .ok (CURLUE_OK, opt)
  | some h => do
    let bucket ←
      if h.pathPart = lit "/" then strcpyOver h.pathPart SIA_DEFAULT_BUCKET else pure h.pathPart
    let port ← atol h.port
    pure (CURLUE_OK,
      { opt with
        scheme := h.scheme
        host := h.host
        user := h.user
        password := h.password
        port_s := h.port
        port := u32 port
        bucket := some bucket
        unauthenticated_url := some (c.curl_url_get h.base) })

/-! ## What the arguments leave -/

/-- The URL is one that was accepted, and nothing of it has been taken apart. -/
structure Accepted (opt : SiaCfg) : Prop where
  valid : ∀ url, opt.url = some url → validate_url url = 0
  unparsed : opt = { defaultOptions with
    url := opt.url, verbose := opt.verbose, maxhandle := opt.maxhandle }

theorem siafs_opt_proc_accepted {s : SiaCfg × List CStr} (arg : CStr × OptKey)
    (h : Accepted s.1) : Accepted (siafs_opt_proc s arg).1 := by
  obtain ⟨opt, outargs⟩ := s
  obtain ⟨arg, key⟩ := arg
  have hunparsed := h.unparsed
  dsimp only at hunparsed
  cases key with
  | FUSE_OPT_KEY_OPT =>
    unfold siafs_opt_proc
    dsimp only
    split
    · exact ⟨h.valid, by rw [hunparsed]⟩
    · split
      · exact ⟨h.valid, by rw [hunparsed]⟩
      · exact h
  | FUSE_OPT_KEY_NONOPT =>
    unfold siafs_opt_proc
    dsimp only
    split
    · refine ⟨fun url hurl => ?_, by rw [hunparsed]⟩
      dsimp only at hurl
      split at hurl
      · cases hurl
        assumption
      · cases hurl
    · exact h

theorem options_accepted (args : List (CStr × OptKey)) : Accepted (options args) := by
  have hrun : ∀ s : SiaCfg × List CStr, Accepted s.1 →
      Accepted (args.foldl siafs_opt_proc s).1 := by
    induction args with
    | nil => exact fun s h => h
    | cons arg args ih => exact fun s h => ih _ (siafs_opt_proc_accepted arg h)
  exact hrun _ ⟨nofun, rfl⟩

/-! ## What is to be taken apart -/

/-- The URL of a text, which is without parts when it is not a URL. -/
def Curl.components (c : Curl) (url : CStr) : CurlUrl :=
  (c.curl_url_set url).getD ⟨none, none, none, none, none, none, none, none⟩

/-- The bucket that a path names. -/
def pathBucket : Option CStr → CStr
  | none => SIA_DEFAULT_BUCKET
  | some path => if path = lit "/" then SIA_DEFAULT_BUCKET else path.tail

/-- The options hold the parts of the URL, and the defaults for those that it lacks. -/
structure Parsed (c : Curl) (url : CStr) (opt : SiaCfg) : Prop where
  scheme : opt.scheme = some ((c.components url).scheme.getD SIA_DEFAULT_SCHEME)
  host : opt.host = some ((c.components url).host.getD SIA_DEFAULT_HOST)
  user : opt.user = (c.components url).user.or SIA_DEFAUT_USER
  password : opt.password = (c.components url).password.or SIA_DEFAULT_PASSWORD
  port : opt.port =
    ((c.components url).port.map fun port => u32 (strtol port)).getD SIA_DEFAULT_PORT
  bucket : opt.bucket = some (pathBucket (c.components url).path)
  unauthenticated_url : opt.unauthenticated_url = some (c.curl_url_get (c.components url).base)
  ends_in_slash : endsWithSlash (c.curl_url_get (c.components url).base) = true

section Parse

variable {c : Curl} {opt opt' : SiaCfg} {url : CStr} {h : CurlUrl} {code : Nat}

theorem parse_url_refused (hset : c.curl_url_set url = none) :
    parse_url c opt url = .ok (CURLUE_OK, opt) := by
  rw [parse_url, hset]

/-- Without a path the default bucket is copied over a slash. -/
theorem parse_url_root (hset : c.curl_url_set url = some h) (hroot : h.pathPart = lit "/") :
    parse_url c opt url = .error .outOfBounds := by
  rw [parse_url, hset]
  dsimp only
  rw [if_pos hroot, hroot]
  rfl

/-- Every part of a URL with a port and a path comes from libcurl. -/
theorem parse_url_parts {port : CStr} (hset : c.curl_url_set url = some h)
    (hroot : h.pathPart ≠ lit "/") (hport : h.port = some port) :
    parse_url c opt url = .ok (CURLUE_OK,
      { opt with
        scheme := h.scheme
        host := h.host
        user := h.user
        password := h.password
        port_s := some port
        port := u32 (strtol port)
        bucket := some h.pathPart
        unauthenticated_url := some (c.curl_url_get h.base) }) := by
  rw [parse_url, hset]
  dsimp only
  rw [if_neg hroot, hport]
  rfl

theorem parse_url_no_port (hset : c.curl_url_set url = some h) (hroot : h.pathPart ≠ lit "/")
    (hport : h.port = none) : parse_url c opt url = .error .nullPointer := by
  rw [parse_url, hset]
  dsimp only
  rw [if_neg hroot, hport]
  rfl

/-- No pointer is null and no buffer too small exactly when the URL is refused or has a path
and a port. -/
theorem parse_url_safe_iff : (∃ r, parse_url c opt url = .ok r) ↔
    ∀ h, c.curl_url_set url = some h → h.pathPart ≠ lit "/" ∧ h.port ≠ none := by
  constructor
  · intro ⟨r, hr⟩ h hset
    have hroot : h.pathPart ≠ lit "/" := by
      intro hroot
      rw [parse_url_root hset hroot] at hr
      cases hr
    refine ⟨hroot, fun hport => ?_⟩
    rw [parse_url_no_port hset hroot hport] at hr
    cases hr
  · intro hsafe
    cases hset : c.curl_url_set url with
    | none => exact ⟨_, parse_url_refused hset⟩
    | some h =>
      obtain ⟨hroot, hport⟩ := hsafe h hset
      obtain ⟨port, hport⟩ := Option.ne_none_iff_exists'.mp hport
      exact ⟨_, parse_url_parts hset hroot hport⟩

/-- A bucket keeps the slash of the path. -/
theorem parse_url_bucket (hset : c.curl_url_set url = some h)
    (hok : parse_url c opt url = .ok (code, opt')) : opt'.bucket = some h.pathPart := by
  obtain ⟨hroot, hport⟩ := parse_url_safe_iff.mp ⟨_, hok⟩ h hset
  obtain ⟨port, hport⟩ := Option.ne_none_iff_exists'.mp hport
  rw [parse_url_parts hset hroot hport] at hok
  cases hok
  rfl

/-- The bucket of a path does not begin as the path does. -/
theorem pathBucket_ne (hset : c.curl_url_set url = some h) (hroot : h.pathPart ≠ lit "/") :
    pathBucket h.path ≠ h.pathPart := by
  cases hpath : h.path with
  | none =>
    rw [CurlUrl.pathPart, hpath] at hroot
    exact absurd rfl hroot
  | some path =>
    have hslash := c.path_slash url h path hset hpath
    rw [CurlUrl.pathPart, hpath] at hroot ⊢
    have hne : path ≠ lit "/" := hroot
    rw [pathBucket, if_neg hne]
    cases path with
    | nil => cases hslash
    | cons b rest =>
      intro heq
      exact absurd (congrArg List.length heq) (Nat.ne_of_lt (Nat.lt_succ_self rest.length))

end Parse

/-- Whatever arguments come with it, an accepted URL is not taken apart: what libcurl
refuses leaves no base URL, the default bucket does not fit where it is copied, and any
other bucket keeps its slash. -/
theorem parse_url_misses (c : Curl) (args : List (CStr × OptKey)) (url : CStr) :
    validate_url url = 0 →
      ¬ ∃ opt', parse_url c (options args) url = .ok (CURLUE_OK, opt') ∧ Parsed c url opt' := by
  rintro - ⟨opt', hok, hparsed⟩
  cases hset : c.curl_url_set url with
  | none =>
    rw [parse_url_refused hset] at hok
    cases hok
    have hbase := hparsed.unauthenticated_url
    rw [(options_accepted args).unparsed] at hbase
    cases hbase
  | some h =>
    have hroot := (parse_url_safe_iff.mp ⟨_, hok⟩ h hset).1
    have hbucket := hparsed.bucket
    rw [parse_url_bucket hset hok, Curl.components, hset] at hbucket
    exact pathBucket_ne hset hroot (Option.some.inj hbucket).symm

/-! ## A library -/

/-- Everything before a byte, and everything after it if it is there. -/
def cutAt (b : UInt8) (text : CStr) : CStr × Option CStr :=
  (text.takeWhile (· ≠ b), if b ∈ text then some ((text.dropWhile (· ≠ b)).drop 1) else none)

/-- The credentials before the host, which are the user and the password. -/
def credentials (authority : CStr) : Option CStr × Option CStr × CStr :=
  match cutAt 64 authority with
  | (userinfo, some server) => (some (cutAt 58 userinfo).1, (cutAt 58 userinfo).2, server)
  | (server, none) => (none, none, server)

def splitUrl (url : CStr) : Option CurlUrl :=
  let scheme := url.takeWhile (· ≠ 58)
  let rest := url.drop scheme.length
  if (scheme = lit "http" ∨ scheme = lit "https") ∧ (lit "://").isPrefixOf rest then
    let rest := rest.drop 3
    let authority := rest.takeWhile fun b => b ≠ slash ∧ b ≠ 63 ∧ b ≠ 35
    let (rest, fragment) := cutAt 35 (rest.drop authority.length)
    let (rest, query) := cutAt 63 rest
    let (user, password, server) := credentials authority
    let (host, port) := cutAt 58 server
    let path := if rest.head? = some slash then some rest else none
    some { scheme := some scheme, host := some host, user, password,
           port := port.filter (· ≠ []), path, query, fragment }
  else none

def joinUrl (h : CurlUrl) : CStr :=
  h.scheme.getD [] ++ lit "://" ++ h.host.getD [] ++
    (h.port.map fun port => lit ":" ++ port).getD [] ++ h.pathPart ++
    (h.query.map fun query => lit "?" ++ query).getD [] ++
    (h.fragment.map fun fragment => lit "#" ++ fragment).getD []

/-- A libcurl for URLs of HTTP without anything to decode. -/
def plainCurl : Curl where
  curl_url_set := splitUrl
  curl_url_get := joinUrl
  path_slash text h path hset hpath := by
    unfold splitUrl at hset
    dsimp only at hset
    split at hset
    · cases hset
      dsimp only at hpath
      split at hpath
      · cases hpath
        assumption
      · cases hpath
    · cases hset

/-- What a URL asks for. -/
example : Parsed plainCurl (lit "http://:pw@h:80/photos")
    { defaultOptions with
      host := some (lit "h")
      user := some []
      password := some (lit "pw")
      port := 80
      bucket := some (lit "photos")
      unauthenticated_url := some (lit "http://h:80/") } := by
  constructor <;> decide +kernel

/-- The one argument of a command line that is a URL. -/
theorem parse_url_misses_photos :
    ¬ ∃ opt', parse_url plainCurl (options [(lit "http://:pw@h:80/photos", .FUSE_OPT_KEY_NONOPT)])
        (lit "http://:pw@h:80/photos") = .ok (CURLUE_OK, opt') ∧
      Parsed plainCurl (lit "http://:pw@h:80/photos") opt' :=
  parse_url_misses plainCurl [(lit "http://:pw@h:80/photos", .FUSE_OPT_KEY_NONOPT)]
    (lit "http://:pw@h:80/photos") (by decide +kernel)

/-- What is accepted, and the bucket and the base URL of it. -/
def parsedBucket (url : CStr) : Nat × Except Fault (Option CStr × Option CStr) :=
  (validate_url url,
    (parse_url plainCurl (options [(url, .FUSE_OPT_KEY_NONOPT)]) url).map
      fun r => (r.2.bucket, r.2.unauthenticated_url))

/-- A bucket, no bucket, no port and no scheme. -/
theorem bucket_keeps_slash :
    parsedBucket (lit "http://:pw@h:80/photos") =
        (0, .ok (some (lit "/photos"), some (lit "http://h:80/"))) ∧
      parsedBucket (lit "http://:pw@h:80/") = (0, .error .outOfBounds) ∧
      parsedBucket (lit "http://:pw@h/photos") = (0, .error .nullPointer) ∧
      parsedBucket (lit "h:80/photos") = (0, .ok (some (lit "localhost"), none)) :=
  ⟨by decide +kernel, by decide +kernel, by decide +kernel, by decide +kernel⟩

end SiaFS
