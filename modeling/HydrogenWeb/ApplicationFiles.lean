import HydrogenWeb.ApplicationCalls
import HydrogenWeb.LexicalPaths

set_option autoImplicit false

/-!
# The files that a request opens

A document root and the path of the request are put together as they are, so that a path
may lead out of every root. `SafePath` says when it cannot.
-/
namespace HydrogenWeb.Application
open HostRun LexicalPaths

/-- Whatever the roots are, what is opened lies under one of them. -/
def StaysUnderRoots (req : HttpRequest) : Prop :=
  ∀ (config : Config) (host : Host) (resp : HttpResponse) (name : List UInt8) (ok : Bool),
    .open name ok ∈ (onRequest config host req resp).calls →
      ∃ root ∈ config.roots, Under (byte '/') (byte '.') root name

/-- The path has no dot, or up to its first NUL it may stand behind a directory. -/
def SafePath (path : List UInt8) : Prop :=
  byte '.' ∉ path ∨ Within (byte '/') (byte '.') (cString path)

instance (path : List UInt8) : Decidable (SafePath path) :=
  inferInstanceAs (Decidable (_ ∨ _))

variable {config : Config} {host : Host} {resp : HttpResponse} {req : HttpRequest}
  {path root : List UInt8}

theorem cString_append (hroot : 0 ∉ root) (path : List UInt8) :
    cString (root ++ path) = root ++ cString path := by
  refine List.takeWhile_append_of_pos fun c hc => ?_
  rw [decide_eq_true_eq]
  rintro rfl
  exact hroot hc

theorem Config.root_free (h : root ∈ config.roots) : 0 ∉ root := by
  rw [Config.roots, List.mem_cons, List.mem_singleton] at h
  rcases h with rfl | rfl
  · exact config.literals.1
  · exact config.literals.2

/-- The names that the handlers make up are safe behind any root. -/
theorem within_of_serves (hsafe : SafePath req.path) (h : Serves req.path path) :
    Within (byte '/') (byte '.') (cString path) := by
  cases h with
  | home _ => decide
  | path hdot => exact hsafe.resolve_left (not_not.2 hdot)
  | signin _ => decide
  | selection _ => decide
  | error hroute =>
    rcases hroute with hroute | hroute
    · rw [hroute]
      decide
    · rw [hroute]
      decide

theorem staysUnderRoots_of_safePath (hsafe : SafePath req.path) : StaysUnderRoots req := by
  intro config host resp name ok hmem
  cases asks_of_mem hmem with
  | «open» hroot hserves =>
    refine ⟨_, hroot, ?_⟩
    rw [cString_append (config.root_free hroot)]
    exact under_of_within _ (within_of_serves hsafe hserves)

def oneRoot (root : List UInt8) (h : 0 ∉ root) : Config := ⟨root, root, [], h, h⟩

theorem eq_of_mem_roots {r : List UInt8} {hroot : 0 ∉ root} (h : r ∈ (oneRoot root hroot).roots) :
    r = root := by
  rw [Config.roots, List.mem_cons, List.mem_singleton] at h
  exact h.elim id id

theorem open_mem_serveFile (host : Host) (path mimeType : List UInt8) (resp : HttpResponse) :
    .open (cString path) (host.file ≠ .openFailed) ∈ (serveFile host path resp mimeType).calls :=
  List.mem_cons_self

theorem open_mem_serveStatic (hroot : 0 ∉ root) (hdot : byte '.' ∈ path) (host : Host)
    (resp : HttpResponse) : .open (root ++ cString path) (host.file ≠ .openFailed) ∈
      (serveStatic (oneRoot root hroot) host path resp).calls := by
  obtain ⟨r, hr, mimeType, heq⟩ := serveStatic_eq hdot (oneRoot root hroot) host resp
  rw [heq, ← cString_append hroot, ← eq_of_mem_roots hr]
  exact mem_bind_left (open_mem_serveFile host _ mimeType resp)

theorem open_mem_onRequest (hroot : 0 ∉ root) (hdot : byte '.' ∈ req.path) (host : Host)
    (resp : HttpResponse) : .open (root ++ cString req.path) (host.file ≠ .openFailed) ∈
      (onRequest (oneRoot root hroot) host req resp).calls := by
  have hpath : ¬ (req.path = bytes "/" ∨ req.path = []) := by
    rintro (heq | heq)
    · rw [heq] at hdot
      exact absurd hdot (by decide)
    · rw [heq] at hdot
      cases hdot
  rw [onRequest, if_pos (isStatic_iff.2 (Or.inr hdot)), if_neg hpath]
  exact open_mem_serveStatic hroot hdot host resp

theorem safePath_of_staysUnderRoots (h : StaysUnderRoots req) : SafePath req.path := by
  by_contra hsafe
  rw [SafePath, not_or, not_not] at hsafe
  obtain ⟨hdot, hwithin⟩ := hsafe
  have hfree : 0 ∉ freshDirectory (byte '/') (byte 'r') (cString req.path) := by
    rw [freshDirectory, List.mem_cons, not_or]
    refine ⟨by decide, fun hmem => ?_⟩
    exact absurd (List.eq_of_mem_replicate hmem) (by decide)
  obtain ⟨root, hroot, hunder⟩ := h _ _ _ _ _
    (open_mem_onRequest hfree hdot barrenHost (HttpResponse.create false))
  rw [eq_of_mem_roots hroot] at hunder
  exact not_under_freshDirectory (by decide) (by decide) hwithin hunder

theorem staysUnderRoots_iff (req : HttpRequest) : StaysUnderRoots req ↔ SafePath req.path :=
  ⟨safePath_of_staysUnderRoots, staysUnderRoots_of_safePath⟩

/-- `/srv/www/../x.html` is not under `/srv/www`. -/
theorem dotted_path_leaves_root : ∃ (o : HttpContext.Outcome) (c : HttpContext) (b : List UInt8),
    HttpContext.parseRequest 0 HttpContext.fresh (bytes "GET /../x.html HTTP/1.1\r\n\r\n") =
      some (o, c, b) ∧ c.state = .ALLOK ∧ ¬ StaysUnderRoots c.request := by
  obtain ⟨o, c, b, hrun, hstate, hpath⟩ := exists_request HttpRequest.path
    (bytes "GET /../x.html HTTP/1.1\r\n\r\n") (bytes "/../x.html") (by decide +kernel)
  refine ⟨o, c, b, hrun, hstate, fun hstays => ?_⟩
  have hroot : 0 ∉ bytes "/srv/www" := by decide
  have hdot : byte '.' ∈ c.request.path := by
    rw [hpath]
    decide
  obtain ⟨root, hmem, -, below, hbelow, -⟩ := hstays _ _ _ _ _
    (open_mem_onRequest hroot hdot barrenHost (HttpResponse.create false))
  rw [eq_of_mem_roots hmem, hpath] at hbelow
  have hsuffix : resolve (byte '/') (byte '.') (bytes "/srv/www") <:+
      resolve (byte '/') (byte '.') (bytes "/srv/www" ++ cString (bytes "/../x.html")) :=
    ⟨below, hbelow.symm⟩
  exact absurd hsuffix (by decide)

end HydrogenWeb.Application
