/-
Mounts that run at the same time.

Several mounts send their requests to one server, which answers them in the order in which
they come.  Each goes on with the answers it got, as far as it comes: it may be slow, be
stopped by a fault or be killed, and meet changes of the others between any two of its own
requests.  Two uploads of one path may then end up with the parts of each other; but every
part still is what one of the mounts wrote there.
-/
import SiaFS.Upload.Integrity

namespace SiaFS

variable {σ τ ι : Type}

/-- A new mount that is asked for `ops` may have exchanged `log` so far, whoever answered. -/
def Exchanges (e : Env σ) (ops : List Op) (log : List (Request × Reply)) : Prop :=
  ∃ (τ : Type) (server : τ → Request → Reply × τ) (w : World τ), w.uploads = [] ∧
    (∀ k s, w.tmp (stagingName e k s) = none) ∧
    w.trace ++ log <+: (Exec.runAll (perform (e.over server)) ops w).2.trace

variable [DecidableEq ι]

/-- The server has come from `s` to `s'` while the mounts exchanged `logs` with it.  Of the
mounts only the build and the host count. -/
inductive Reached (server : σ → Request → Reply × σ) (e : ι → Env σ) (ops : ι → List Op) (s : σ) :
    (ι → List (Request × Reply)) → σ → Prop
  | start : Reached server e ops s (fun _ => []) s
  | request {logs : ι → List (Request × Reply)} {s' : σ} (h : Reached server e ops s logs s')
    (i : ι) (r : Request) (hr : Exchanges (e i) (ops i) (logs i ++ [(r, (server s' r).1)])) :
    Reached server e ops s (Function.update logs i (logs i ++ [(r, (server s' r).1)]))
      (server s' r).2

/-- One of the mounts has written it to the part. -/
def WrittenByOne (e : ι → Env σ) (ops : ι → List Op) (path : CStr) (n : Nat) (body : Bytes) :
    Prop :=
  ∃ i, Written (e i) (ops i) path n body

variable {server : σ → Request → Reply × σ} {e : ι → Env σ} {ops : ι → List Op} {s s' : σ}
  {logs : ι → List (Request × Reply)} {view : σ → Bucket}

omit [DecidableEq ι] in
theorem Request.Fits.mono {W W' : CStr → Nat → Bytes → Prop} {renames renames' : Prop}
    {r : Request} (h : r.Fits W renames) (hW : ∀ path n body, W path n body → W' path n body)
    (hrenames : renames → renames') : r.Fits W' renames' := by
  cases r with
  | objects_rename source target mode => exact hrenames h
  | multipart_complete payload => exact h
  | worker_put path body =>
    obtain ⟨parts, hincreasing, hparts, hcontent⟩ := h
    exact ⟨parts, hincreasing, fun x hx => hW path x.1 x.2 (hparts x hx), hcontent⟩
  | worker_put_multipart path id n body => exact hW path n body h
  | _ => trivial

omit [DecidableEq ι] in
/-- What is exchanged last fits what is asked for. -/
theorem Exchanges.fits {e : Env σ} {ops : List Op} {log : List (Request × Reply)} {r : Request}
    {reply : Reply} (h : Exchanges e ops (log ++ [(r, reply)]))
    (hI : Function.Injective e.host.tmpnam) :
    r.Fits (Written e ops) (∃ op ∈ ops, op.Renames) := by
  obtain ⟨τ, server, w, huploads, htmp, rest, hrest⟩ := h
  obtain ⟨t, ht, hsent⟩ := run_exchanges (e := e.over server) ops hI huploads htmp
  have hlog : t = log ++ [(r, reply)] ++ rest := by
    have htrace : w.trace ++ t = w.trace ++ (log ++ [(r, reply)] ++ rest) := by
      rw [← ht, ← hrest, List.append_assoc]
    exact List.append_cancel_left htrace
  obtain ⟨⟨op, hop, hrequest⟩, hsourced⟩ := hsent (r, reply) (by simp [hlog])
  exact hrequest.fits hop hsourced

/-- The step: whichever mount is next. -/
theorem Integral.request (hserver : Doing server view) {W : CStr → Nat → Bytes → Prop}
    {renames : Prop} (h : Integral W renames (view s)) (hempty : ∀ path n, W path n [])
    {r : Request} (hfits : r.Fits W renames) : Integral W renames (view (server s r).2) := by
  rcases hserver s r with hsame | hdone
  · rwa [hsame]
  · exact h.affects hempty hfits hdone

/-- Whatever mounts do at the same time to an empty bucket, every object is made of numbered
parts, and each part of what one of the mounts wrote there: under the name of the object,
unless something was renamed. -/
theorem composed_at_once (hserver : Doing server view)
    (hI : ∀ i, Function.Injective (e i).host.tmpnam) (h : Reached server e ops s logs s')
    (hobjects : (view s).objects = fun _ => none) (hpending : (view s).pending = fun _ => none)
    {name : CStr} {content : Bytes} (hname : (view s').objects name = some content) :
    ∃ path, MadeOf (WrittenByOne e ops) path content ∧
      ((∀ i, ∀ op ∈ ops i, ¬ op.Renames) → path = name) := by
  have hall : Integral (WrittenByOne e ops) (∃ i, ∃ op ∈ ops i, op.Renames) (view s') := by
    clear hname
    induction h with
    | start => exact Integral.start hobjects hpending
    | request _ i r hr ih =>
      exact ih.request hserver (fun path n => ⟨i, Woven.empty _⟩)
        ((hr.fits (hI i)).mono (fun _ _ _ hbody => ⟨i, hbody⟩) fun hrenames => ⟨i, hrenames⟩)
  obtain ⟨path, hmade, hpath⟩ := hall.objects name content hname
  refine ⟨path, hmade, fun hnone => hpath ?_⟩
  rintro ⟨i, op, hop, hrenames⟩
  exact hnone i op hop hrenames

/-! ## A rename overtaken by a write -/

/-- One mount renames what another one writes. -/
def renameAndWrite (writes : Bool) : List Op :=
  if writes then [.write (lit "/a") [1] 0] else [.rename (lit "/a") (lit "/b")]

theorem exchanges_of_run {e : Env σ} {ops : List Op} {log : List (Request × Reply)} (s : σ)
    (h : log <+: (Exec.runAll (perform (e.over e.server)) ops (mounted s none)).2.trace) :
    Exchanges e ops log :=
  ⟨σ, e.server, mounted s none, rfl, fun _ _ => rfl, h⟩

/-- The file is written after the mount that renames it has looked for a directory. -/
theorem composed_at_once_renamed :
    ∃ path, MadeOf (WrittenByOne (fun _ => hugeMount) renameAndWrite) path [1] ∧
      ((∀ i, ∀ op ∈ renameAndWrite i, ¬ op.Renames) → path = lit "/b") := by
  have hlook : Reached hugeMount.server (fun _ => hugeMount) renameAndWrite Store.blank _ _ :=
    .request .start false (.objects_list (lit "/a/"))
      (exchanges_of_run (Store.blank.put (lit "/a") [1]) ⟨_, rfl⟩)
  have hwrite := hlook.request true (.worker_put (lit "/a") [1])
    (exchanges_of_run Store.blank ⟨[], rfl⟩)
  have hrename := hwrite.request false (.objects_rename (lit "/a") (lit "/b") (lit "single"))
    (exchanges_of_run (Store.blank.put (lit "/a") [1]) ⟨[], rfl⟩)
  exact composed_at_once (renterd_doing _) (fun _ => plainHost_reliable.tmpnam_injective) hrename
    rfl blank_pending rfl

end SiaFS
