import HydrogenWeb.ApplicationAnswers

set_option autoImplicit false

/-!
# Users of the web application

What a request to sign in or up does depends on the answers of the database: the page behind the
sign-in is served exactly if every password row has been validated, and a user is inserted
exactly if the search for its name ended without a row.
-/
namespace HydrogenWeb.Application
open ByteBuffer ListSearch HttpContext HttpResponse HostRun Detail

namespace HostRun

variable {α β : Type}

theorem mem_bind_iff {m : HostRun α} {f : α → HostRun β} {c : HostCall} :
    c ∈ (m >>= f).calls ↔ c ∈ m.calls ∨ ∃ a, m.result = some a ∧ c ∈ (f a).calls := by
  cases hresult : m.result with
  | none =>
    rw [bind_of_none hresult]
    simp
  | some a =>
    rw [bind_of_some hresult, List.mem_append]
    simp

theorem mem_call_bind {c d : HostCall} {f : Unit → HostRun β} :
    d ∈ (call c >>= f).calls ↔ d = c ∨ d ∈ (f ()).calls := by
  have hresult : (call c).result = some () := rfl
  rw [mem_bind_iff, hresult]
  simp only [call, List.mem_singleton]
  exact or_congr_right ⟨fun ⟨_, _, h⟩ => h, fun h => ⟨(), trivial, h⟩⟩

@[simp] theorem calls_pure (a : α) : (pure a : HostRun α).calls = [] := rfl

@[simp] theorem calls_died : (died : HostRun α).calls = [] := rfl

end HostRun

variable {config : Config} {host : Host} {req : HttpRequest} {resp : HttpResponse} {c : HostCall}

/-- A path with one dot, before its suffix `.html`, goes to the directory of the pages. -/
theorem serveStatic_html {stem : List UInt8} (hstem : byte '.' ∉ stem) (hne : stem ≠ []) :
    serveStatic config host (stem ++ bytes ".html") resp = (do
      let resp ← serveFile host (config.htmlPath ++ (stem ++ bytes ".html")) resp (bytes "text/html")
      pure (resp.setCloseConnection true)) := by
  have hdot : stem ++ bytes ".html" = stem ++ byte '.' :: bytes "html" := rfl
  have hfind : find (byte '.') (stem ++ bytes ".html") = some stem.length := by
    rw [hdot]
    exact find_append_cons hstem
  have hpos : 0 < stem.length := List.length_pos_of_ne_nil hne
  have hsuffix : ((stem ++ bytes ".html").drop stem.length).take
      ((stem ++ bytes ".html").length - 1) = bytes ".html" := by
    have hlength : (bytes ".html").length = 5 := by decide
    rw [List.drop_left, List.take_of_length_le]
    rw [List.length_append]
    omega
  have hmime : mimeTypes[bytes ".html"]? = some (bytes "text/html") := by decide +kernel
  rw [serveStatic, hfind]
  simp only [hsuffix, hmime, if_true]

theorem mem_serveFile {path mimeType : List UInt8} :
    c ∈ (serveFile host path resp mimeType).calls ↔
      c = .open (cString path) (host.file ≠ .openFailed) := by
  rw [serveFile, mem_call_bind]
  split
  · simp
  · simp
  · split
    · simp
    · simp

theorem mem_serveStatic_html {stem : List UInt8} (hstem : byte '.' ∉ stem) (hne : stem ≠ []) :
    c ∈ (serveStatic config host (stem ++ bytes ".html") resp).calls ↔
      c = .open (cString (config.htmlPath ++ (stem ++ bytes ".html"))) (host.file ≠ .openFailed) := by
  rw [serveStatic_html hstem hne, mem_bind_iff, mem_serveFile]
  simp

def htmlPage (config : Config) (host : Host) (path : List UInt8) : HostCall :=
  .open (cString (config.htmlPath ++ path)) (host.file ≠ .openFailed)

theorem cString_of_free {s : List UInt8} (h : 0 ∉ s) : cString s = s := by
  rw [cString, List.takeWhile_eq_self_iff]
  intro x hx
  simp only [ne_eq, decide_not, Bool.not_eq_eq_eq_not, Bool.not_true, decide_eq_false_iff_not]
  rintro rfl
  exact h hx

theorem htmlPage_inj {path path' : List UInt8} (hpath : 0 ∉ path) (hpath' : 0 ∉ path') :
    htmlPage config host path = htmlPage config host path' ↔ path = path' := by
  have hroot := config.literals.1
  have hfree : ∀ p, 0 ∉ p → cString (config.htmlPath ++ p) = config.htmlPath ++ p := by
    intro p hp
    refine cString_of_free ?_
    rw [List.mem_append, not_or]
    exact ⟨hroot, hp⟩
  rw [htmlPage, htmlPage, hfree path hpath, hfree path' hpath', HostCall.open.injEq,
    List.append_cancel_left_eq]
  simp

def Validates (host : Host) (password : List UInt8) (row : Row) : Prop :=
  ∃ hash rest, row = some hash :: rest ∧ host.validatePassword password hash = true

theorem checkPassword_eq {password : List UInt8} {row : Row} {answer : ℤ × List UInt8}
    (h : checkPassword host password row = some answer) :
    answer.2 = password ∧ (answer.1 = 0 ↔ Validates host password row) := by
  rcases row with _ | ⟨column, rest⟩
  · cases h
  · cases column with
    | none => cases h
    | some hash =>
      cases h
      refine ⟨rfl, ?_⟩
      cases hvalid : host.validatePassword password hash with
      | true => simp [Validates, hvalid]
      | false => simp [Validates, hvalid]

/-- `sqlite3_exec` goes through all rows exactly if each of them validates the password. -/
theorem feed_checkPassword (password : List UInt8) (rows : List Row) :
    (∃ data, feed (checkPassword host) password rows = some (true, data)) ↔
      ∀ row ∈ rows, Validates host password row := by
  induction rows with
  | nil => simp [feed]
  | cons row rows ih =>
    rw [feed, List.forall_mem_cons]
    cases hrow : checkPassword host password row with
    | none =>
      refine iff_of_false (by simp) fun hall => ?_
      obtain ⟨hash, rest, rfl, -⟩ := hall.1
      cases hrow
    | some answer =>
      obtain ⟨ret, data⟩ := answer
      obtain ⟨hdata, hzero⟩ := checkPassword_eq hrow
      dsimp only at hdata hzero ⊢
      subst hdata
      rw [← hzero, ← ih]
      split
      · rename_i hret
        simp [hret]
      · rename_i hret
        simp [hret]

/-- `sqlite3_exec` reports success exactly if the database does and every row is taken. -/
theorem execSql_ok_iff (sql password : List UInt8) :
    (∃ data, (execSql host sql (checkPassword host) password).result = some (SQLITE_OK, data)) ↔
      host.execRet = SQLITE_OK ∧ ∀ row ∈ host.execRows, Validates host password row := by
  have habort : SQLITE_ABORT ≠ SQLITE_OK := by decide
  have hresult : (execSql host sql (checkPassword host) password).result =
      (feed (checkPassword host) password host.execRows).map fun (taken, data) =>
        (if taken then host.execRet else SQLITE_ABORT, data) := by
    rw [execSql, bind_of_some rfl]
    dsimp only
    split
    · rename_i hfeed
      rw [hfeed]
      rfl
    · rename_i taken data hfeed
      rw [hfeed]
      rfl
  rw [hresult, ← feed_checkPassword]
  constructor
  · rintro ⟨data, heq⟩
    obtain ⟨⟨taken, data'⟩, hfeed, hpair⟩ := Option.map_eq_some_iff.1 heq
    rw [Prod.mk.injEq] at hpair
    obtain ⟨hret, -⟩ := hpair
    cases taken with
    | true => exact ⟨hret, data', hfeed⟩
    | false => exact absurd hret habort
  · rintro ⟨hret, data, hfeed⟩
    refine ⟨data, ?_⟩
    rw [hfeed, ← hret]
    rfl

theorem mem_doSql {sql : List UInt8} : c ∈ (doSql host sql).calls ↔ c = .sql sql := by
  rw [doSql, mem_call_bind]
  simp

theorem doSql_result (sql : List UInt8) : (doSql host sql).result = some host.queried := rfl

theorem mem_execSql {δ : Type} {sql : List UInt8} {callback : δ → Row → Option (ℤ × δ)} {data : δ} :
    c ∈ (execSql host sql callback data).calls ↔ c = .sql sql := by
  rw [execSql, mem_call_bind]
  split
  · simp
  · simp

theorem openDb_result : (openDb config host).result = some host.db.ret := rfl

theorem mem_openDb : c ∈ (openDb config host).calls ↔
    c = .sqlite3_open (cString config.databasePath) host.db.handle := by
  rw [openDb, mem_call_bind]
  simp

theorem mem_close {m : HostRun HttpResponse} :
    c ∈ (do let resp ← m; call .sqlite3_close; pure resp : HostRun HttpResponse).calls ↔
      c ∈ m.calls ∨ c = .sqlite3_close ∧ m.result.isSome = true := by
  rw [mem_bind_iff, Option.isSome_iff_exists]
  refine or_congr_right ?_
  constructor
  · rintro ⟨a, ha, hc⟩
    rw [mem_call_bind] at hc
    exact ⟨hc.resolve_right (by simp), a, ha⟩
  · rintro ⟨rfl, a, ha⟩
    exact ⟨a, ha, mem_call_bind.2 (Or.inl rfl)⟩

theorem mem_after {α β : Type} {m : HostRun α} {f : α → HostRun β} {a : α}
    (hresult : m.result = some a) (hc : c ∉ m.calls) : c ∈ (m >>= f).calls ↔ c ∈ (f a).calls := by
  rw [mem_bind_iff, hresult]
  simp [hc]

theorem serveStatic_error {word : List UInt8} (hword : byte '.' ∉ word) :
    c ∈ (serveStatic config host (word ++ bytes "_error.html") resp).calls ↔
      c = htmlPage config host (word ++ bytes "_error.html") := by
  have hsplit : word ++ bytes "_error.html" = (word ++ bytes "_error") ++ bytes ".html" := by
    rw [List.append_assoc]
    rfl
  have hfree : byte '.' ∉ bytes "_error" := by decide
  rw [hsplit, mem_serveStatic_html]
  · rfl
  · rw [List.mem_append, not_or]
    exact ⟨hword, hfree⟩
  · exact List.append_ne_nil_of_right_ne_nil _ (by decide)

/-- The page behind the sign-in. -/
theorem selection_iff (hpath : req.path = bytes "/signin") :
    htmlPage config host (bytes "/selection.html") ∈ (onRequest config host req resp).calls ↔
      host.db.ret = SQLITE_OK ∧ host.queried = SQLITE_ROW ∧ host.execRet = SQLITE_OK ∧
        ∀ row ∈ host.execRows, Validates host (req.getBody (bytes "password")) row := by
  have hrow : SQLITE_ROW ≠ SQLITE_DONE := by decide
  have hpage : ∀ d, htmlPage config host (bytes "/selection.html") = d →
      (∃ p ok, d = .open p ok) := fun d hd => ⟨_, _, hd.symm⟩
  have hother : ¬ htmlPage config host (bytes "/selection.html") =
      htmlPage config host (bytes "/signin" ++ bytes "_error.html") := by
    rw [htmlPage_inj (by decide) (by decide)]
    decide
  have hsame : bytes "/selection.html" = bytes "/selection" ++ bytes ".html" := by decide
  rw [onRequest_signin config host resp hpath, signin, mem_after openDb_result (by
    rw [mem_openDb]; exact HostCall.noConfusion)]
  split
  · rename_i hclosed
    exact iff_of_false (by simp) fun h => hclosed h.1
  rename_i hopen
  rw [not_not] at hopen
  rw [mem_after (doSql_result _) (by rw [mem_doSql]; exact HostCall.noConfusion)]
  dsimp only
  split
  · rename_i hdone
    rw [mem_close, hpath, serveStatic_error (by decide)]
    refine iff_of_false (fun h => h.elim hother fun hclose => ?_) fun h => hrow (h.2.1.symm.trans hdone)
    cases hclose.1
  split
  · rename_i hdone hcode
    have hserve : htmlPage config host (bytes "/selection.html") ∈
        (serveStatic config host (bytes "/selection.html") resp).calls := by
      rw [hsame, mem_serveStatic_html (by decide) (by decide)]
      rfl
    rw [← execSql_ok_iff (selectPassword (req.getBody (bytes "username"))), mem_bind_iff]
    constructor
    · rintro (hsql | ⟨⟨ret, data⟩, hresult, hmem⟩)
      · rw [mem_execSql] at hsql
        cases hsql
      · refine ⟨hopen, hcode, data, ?_⟩
        dsimp only at hmem
        split at hmem
        · rw [mem_close, hpath, serveStatic_error (by decide)] at hmem
          rcases hmem with hmem | ⟨hmem, -⟩
          · exact absurd hmem hother
          · cases hmem
        · rename_i hret
          rw [not_not] at hret
          rw [hresult, hret]
    · rintro ⟨-, -, data, hresult⟩
      refine Or.inr ⟨(SQLITE_OK, data), hresult, ?_⟩
      dsimp only
      rw [if_neg (by simp), mem_close]
      exact Or.inl hserve
  · rename_i hdone hcode
    refine iff_of_false (fun h => ?_) fun h => hcode h.2.1
    rw [mem_close] at h
    rcases h with h | ⟨h, -⟩
    · cases h
    · cases h

theorem insertUser_ne_selectUser (username hash name : List UInt8) :
    insertUser username hash ≠ selectUser name := by
  have hinsert : bytes "INSERT INTO users (username, password) " =
      byte 'I' :: bytes "NSERT INTO users (username, password) " := by decide
  have hselect : bytes "SELECT * from users WHERE username='" =
      byte 'S' :: bytes "ELECT * from users WHERE username='" := by decide
  rw [insertUser, selectUser, hinsert, hselect]
  simp only [List.cons_append, ne_eq, List.cons.injEq, not_and]
  intro hhead
  exact absurd hhead (by decide)

theorem insertUser_inj {username hash hash' : List UInt8} :
    insertUser username hash = insertUser username hash' ↔ hash = hash' := by
  rw [insertUser, insertUser, List.append_cancel_right_eq, List.append_cancel_left_eq]

/-- A new user. -/
theorem insertUser_iff (hpath : req.path = bytes "/signup") (hash : List UInt8) :
    .sql (insertUser (req.getBody (bytes "username")) hash) ∈ (onRequest config host req resp).calls ↔
      host.db.ret = SQLITE_OK ∧ host.queried = SQLITE_DONE ∧
        host.generateHash (req.getBody (bytes "password")) = some hash := by
  have hstatic : ∀ {stem : List UInt8}, byte '.' ∉ stem → stem ≠ [] →
      HostCall.sql (insertUser (req.getBody (bytes "username")) hash) ∉
        (serveStatic config host (stem ++ bytes ".html") resp).calls := by
    intro stem hstem hne hmem
    rw [mem_serveStatic_html hstem hne] at hmem
    cases hmem
  rw [onRequest_signup config host resp hpath, signup, mem_after openDb_result (by
    rw [mem_openDb]; exact HostCall.noConfusion)]
  split
  · rename_i hclosed
    exact iff_of_false (by simp) fun h => hclosed h.1
  rename_i hopen
  rw [not_not] at hopen
  rw [mem_after (doSql_result _) (by
    rw [mem_doSql, HostCall.sql.injEq]
    exact insertUser_ne_selectUser _ _ _)]
  dsimp only
  split
  · rename_i hdone
    split
    · rename_i hnone
      rw [mem_close]
      simp [hnone, died]
    · rename_i hash' hsome
      rw [mem_bind_iff, mem_execSql, HostCall.sql.injEq, insertUser_inj, hsome]
      constructor
      · rintro (heq | ⟨answer, -, hmem⟩)
        · exact ⟨hopen, hdone, by rw [heq]⟩
        · exfalso
          split at hmem
          · rw [mem_close] at hmem
            rcases hmem with hmem | ⟨hmem, -⟩
            · cases hmem
            · cases hmem
          · have hsame : bytes "/signin.html" = bytes "/signin" ++ bytes ".html" := by decide
            rw [mem_close] at hmem
            rcases hmem with hmem | ⟨hmem, -⟩
            · rw [hsame] at hmem
              exact hstatic (by decide) (by decide) hmem
            · cases hmem
      · intro h
        cases h.2.2
        exact Or.inl rfl
  · rename_i hdone
    refine iff_of_false (fun hmem => ?_) fun h => hdone h.2.1
    split at hmem
    · rw [mem_close, hpath, serveStatic_error (by decide)] at hmem
      rcases hmem with hmem | ⟨hmem, -⟩
      · cases hmem
      · cases hmem
    · rw [mem_close] at hmem
      rcases hmem with hmem | ⟨hmem, -⟩
      · cases hmem
      · cases hmem

/-- On the two paths of the users: the page behind the sign-in is opened exactly if the database
answers for the user and every password row that comes with that validates the password, and a
user is inserted exactly if the search for the name has come to its end without a row. -/
theorem users_checked (config : Config) (host : Host) (req : HttpRequest) (resp : HttpResponse) :
    (req.path = bytes "/signin" →
      (htmlPage config host (bytes "/selection.html") ∈ (onRequest config host req resp).calls ↔
        host.db.ret = SQLITE_OK ∧ host.queried = SQLITE_ROW ∧ host.execRet = SQLITE_OK ∧
          ∀ row ∈ host.execRows, Validates host (req.getBody (bytes "password")) row)) ∧
    (req.path = bytes "/signup" → ∀ hash,
      (.sql (insertUser (req.getBody (bytes "username")) hash) ∈
          (onRequest config host req resp).calls ↔
        host.db.ret = SQLITE_OK ∧ host.queried = SQLITE_DONE ∧
          host.generateHash (req.getBody (bytes "password")) = some hash)) :=
  ⟨selection_iff, insertUser_iff⟩

/-- The database has one user, with the password `pw`. -/
def annesHost : Host :=
  { barrenHost with
    db := ⟨0, true, fun _ => rfl⟩, prepareRet := 0, stepRet := 100, execRet := 0,
    execRows := [[some (bytes "h")]],
    generateHash := fun password => some (password ++ bytes "#"),
    validatePassword := fun password hash => password == bytes "pw" && hash == bytes "h" }

def account (path username password : String) : HttpRequest :=
  withHeader (withHeader { HttpRequest.empty with method := .POST, path := bytes path }
    (bytes "username") (bytes username)) (bytes "password") (bytes password)

theorem account_username (path username password : String) :
    (account path username password).getBody (bytes "username") = bytes username := by
  change HttpRequest.getHeader _ _ = _
  rw [account, getHeader_withHeader, getHeader_withHeader, if_neg (by decide), if_pos rfl]

theorem account_password (path username password : String) :
    (account path username password).getBody (bytes "password") = bytes password := by
  change HttpRequest.getHeader _ _ = _
  rw [account, getHeader_withHeader, if_pos rfl]

/-- The password decides who comes in, and a name that is not found is inserted. -/
theorem users_checked_of_anne :
    htmlPage emptyConfig annesHost (bytes "/selection.html") ∈ (onRequest emptyConfig annesHost
      (account "/signin" "anne" "pw") (HttpResponse.create false)).calls ∧
    htmlPage emptyConfig annesHost (bytes "/selection.html") ∉ (onRequest emptyConfig annesHost
      (account "/signin" "anne" "wp") (HttpResponse.create false)).calls ∧
    .sql (insertUser (bytes "bob") (bytes "pw#")) ∈ (onRequest emptyConfig
      { annesHost with stepRet := 101 } (account "/signup" "bob" "pw")
      (HttpResponse.create false)).calls := by
  have hvalidates : ∀ password, (∀ row ∈ annesHost.execRows, Validates annesHost password row) ↔
      password = bytes "pw" := by
    intro password
    simp [annesHost, Validates]
  refine ⟨?_, fun hmem => ?_, ?_⟩
  · refine ((users_checked emptyConfig annesHost (account "/signin" "anne" "pw")
      (HttpResponse.create false)).1 rfl).2 ⟨rfl, rfl, rfl, ?_⟩
    rw [hvalidates, account_password]
  · have h := (((users_checked emptyConfig annesHost (account "/signin" "anne" "wp")
      (HttpResponse.create false)).1 rfl).1 hmem).2.2.2
    rw [hvalidates, account_password] at h
    exact absurd h (by decide)
  · have h := ((users_checked emptyConfig { annesHost with stepRet := 101 }
      (account "/signup" "bob" "pw") (HttpResponse.create false)).2 rfl (bytes "pw#")).2
    rw [account_username, account_password] at h
    exact h ⟨rfl, rfl, rfl⟩

end HydrogenWeb.Application
