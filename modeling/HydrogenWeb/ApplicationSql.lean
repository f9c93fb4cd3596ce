import HydrogenWeb.ApplicationCalls
import HydrogenWeb.QuotedLiterals

set_option autoImplicit false

/-!
# The username in the SQL texts

`Statement` says how the texts of /signup and /signin are meant to be read: the username is
one literal, and what stands around it is fixed. The handlers put the username between the
quotes as it is.
-/
namespace HydrogenWeb.Application
open HostRun QuotedLiterals

def quote : UInt8 := 39

/-- The statements on the users, with the value of each literal and the text behind it. -/
inductive Statement (username : List UInt8) (hash : Option (List UInt8)) : Layout UInt8 → Prop where
  | selectUser : Statement username hash
      ⟨bytes "SELECT * from users WHERE username=", [(username, [])]⟩
  | insertUser {h : List UInt8} : hash = some h → Statement username hash
      ⟨bytes "INSERT INTO users (username, password) VALUES (",
        [(username, bytes ", "), (h, bytes ")")]⟩
  | selectPassword : Statement username hash
      ⟨bytes "SELECT password from users WHERE username=", [(username, [])]⟩

def Host.HashesFree (host : Host) : Prop :=
  ∀ password hash, host.generateHash password = some hash → quote ∉ hash

/-- Every text that handling the request gives to the database is read as it is meant. -/
def UsernameStaysLiteral (req : HttpRequest) : Prop :=
  ∀ (config : Config) (host : Host) (resp : HttpResponse) (text : List UInt8), host.HashesFree →
    .sql text ∈ (onRequest config host req resp).calls →
      ∃ l, outside quote text = some l ∧ Statement (req.getBody (bytes "username"))
        (host.generateHash (req.getBody (bytes "password"))) l

variable {req : HttpRequest} {username hash text : List UInt8}

theorem select_eq {opening text : List UInt8} (h : opening = text ++ [quote])
    (username : List UInt8) :
    opening ++ username ++ bytes "'" = text ++ quote :: (username ++ quote :: []) := by
  have hclose : bytes "'" = [quote] := by decide
  rw [h, hclose, List.append_assoc, List.append_assoc]
  rfl

theorem selectUser_eq (username : List UInt8) : selectUser username =
    bytes "SELECT * from users WHERE username=" ++ quote :: (username ++ quote :: []) :=
  select_eq (by decide) username

theorem selectPassword_eq (username : List UInt8) : selectPassword username =
    bytes "SELECT password from users WHERE username=" ++ quote :: (username ++ quote :: []) :=
  select_eq (by decide) username

theorem insertUser_eq (username hash : List UInt8) : insertUser username hash =
    bytes "INSERT INTO users (username, password) VALUES (" ++ quote :: (username ++ quote ::
      (bytes ", " ++ quote :: (hash ++ quote :: bytes ")"))) := by
  have hopen : bytes "INSERT INTO users (username, password) " ++ bytes "VALUES ('" =
      bytes "INSERT INTO users (username, password) VALUES (" ++ [quote] := by decide
  have hmiddle : bytes "', '" = quote :: (bytes ", " ++ [quote]) := by decide
  have hclose : bytes "')" = quote :: bytes ")" := by decide
  rw [insertUser, hopen, hmiddle, hclose]
  simp only [List.append_assoc, List.cons_append, List.nil_append]

/-- A literal without a quote in it, at the end of a text. -/
theorem outside_last_literal (htext : quote ∉ text) (h : quote ∉ username) :
    outside quote (text ++ quote :: (username ++ quote :: [])) = some ⟨text, [(username, [])]⟩ := by
  rw [outside_append htext, outside_literal h (by decide), outside_of_notMem List.not_mem_nil]
  simp

theorem outside_insertUser (h : quote ∉ username) (hhash : quote ∉ hash) :
    outside quote (insertUser username hash) =
      some ⟨bytes "INSERT INTO users (username, password) VALUES (",
        [(username, bytes ", "), (hash, bytes ")")]⟩ := by
  have hcomma : (bytes ", " ++ quote :: (hash ++ quote :: bytes ")")).head? = some (byte ',') := rfl
  rw [insertUser_eq, outside_append (by decide), outside_literal h (by rw [hcomma]; decide),
    outside_append (by decide), outside_literal hhash (by decide), outside_of_notMem (by decide)]
  simp

theorem staysLiteral_of_notMem (hroute : req.path = bytes "/signup" ∨ req.path = bytes "/signin")
    (h : quote ∉ req.getBody (bytes "username")) : UsernameStaysLiteral req := by
  intro config host resp text hfree hmem
  cases asks_of_mem hmem with
  | booklist hpath =>
    rw [hpath] at hroute
    exact absurd hroute (by decide)
  | selectUser _ =>
    rw [selectUser_eq]
    exact ⟨_, outside_last_literal (by decide) h, .selectUser⟩
  | insertUser _ hhash => exact ⟨_, outside_insertUser h (hfree _ _ hhash), .insertUser hhash⟩
  | selectPassword _ =>
    rw [selectPassword_eq]
    exact ⟨_, outside_last_literal (by decide) h, .selectPassword⟩

def emptyHost : Host :=
  { barrenHost with
    db := ⟨0, true, fun _ => rfl⟩
    prepareRet := SQLITE_OK
    stepRet := SQLITE_DONE
    execRet := SQLITE_OK
    generateHash := fun _ => some [] }

theorem select_mem_onRequest
    (hroute : req.path = bytes "/signup" ∨ req.path = bytes "/signin") (config : Config)
    (resp : HttpResponse) : .sql (selectUser (req.getBody (bytes "username"))) ∈
      (onRequest config emptyHost req resp).calls := by
  have hselect : .sql (selectUser (req.getBody (bytes "username"))) ∈
      (Detail.doSql emptyHost (selectUser (req.getBody (bytes "username")))).calls :=
    List.mem_cons_self
  rcases hroute with h | h
  · rw [onRequest_signup _ _ _ h]
    exact mem_bind_right rfl (mem_bind_left hselect)
  · rw [onRequest_signin _ _ _ h]
    exact mem_bind_right rfl (mem_bind_left hselect)

theorem notMem_of_staysLiteral (hroute : req.path = bytes "/signup" ∨ req.path = bytes "/signin")
    (h : UsernameStaysLiteral req) : quote ∉ req.getBody (bytes "username") := by
  have hfree : emptyHost.HashesFree := by
    rintro password hash heq
    cases heq
    exact List.not_mem_nil
  obtain ⟨l, hread, hstatement⟩ := h ⟨[], [], [], List.not_mem_nil, List.not_mem_nil⟩ emptyHost
    (HttpResponse.create false) _ hfree (select_mem_onRequest hroute _ _)
  rw [selectUser_eq, outside_append (by decide), outside_quote, Option.map_map] at hread
  obtain ⟨⟨value, behind⟩, hinside, heq⟩ := Option.map_eq_some_iff.1 hread
  have htext : bytes "SELECT * from users WHERE username=" ++ [] = l.text :=
    congrArg Layout.text heq
  cases hstatement with
  | selectUser =>
    have hliterals := congrArg Layout.literals heq
    change (value, behind.text) :: behind.literals = [(_, [])] at hliterals
    rw [List.cons.injEq, Prod.mk.injEq] at hliterals
    rw [hliterals.1.1] at hinside
    exact notMem_of_inside hinside (by decide)
  | insertUser _ => exact absurd htext (by dsimp only; decide)
  | selectPassword => exact absurd htext (by dsimp only; decide)

theorem usernameStaysLiteral_iff (req : HttpRequest)
    (hroute : req.path = bytes "/signup" ∨ req.path = bytes "/signin") :
    UsernameStaysLiteral req ↔ quote ∉ req.getBody (bytes "username") :=
  ⟨notMem_of_staysLiteral hroute, staysLiteral_of_notMem hroute⟩

def routeAndUser (req : HttpRequest) : List UInt8 × List UInt8 :=
  (req.path, req.getBody (bytes "username"))

def aliceSignin : List UInt8 :=
  bytes "POST /signin HTTP/1.1\r\nContent-Length: 26\r\n\r\nusername=alice&password=pw"

theorem alice_staysLiteral : ∃ (o : HttpContext.Outcome) (c : HttpContext) (b : List UInt8),
    HttpContext.parseRequest 0 HttpContext.fresh aliceSignin = some (o, c, b) ∧
      c.state = .ALLOK ∧ UsernameStaysLiteral c.request := by
  obtain ⟨o, c, b, hrun, hstate, hvalues⟩ := exists_request routeAndUser aliceSignin
    (bytes "/signin", bytes "alice") (by decide +kernel)
  obtain ⟨hpath, hname⟩ := Prod.mk.inj hvalues
  refine ⟨o, c, b, hrun, hstate, (usernameStaysLiteral_iff c.request (Or.inr hpath)).2 ?_⟩
  rw [hname]
  decide

/-- The text then reads `WHERE username='x' OR 'x'`. -/
def quotedSignin : List UInt8 :=
  bytes "POST /signin HTTP/1.1\r\nContent-Length: 17\r\n\r\nusername=x' OR 'x"

theorem quoted_not_staysLiteral : ∃ (o : HttpContext.Outcome) (c : HttpContext) (b : List UInt8),
    HttpContext.parseRequest 0 HttpContext.fresh quotedSignin = some (o, c, b) ∧
      c.state = .ALLOK ∧ ¬ UsernameStaysLiteral c.request := by
  obtain ⟨o, c, b, hrun, hstate, hvalues⟩ := exists_request routeAndUser quotedSignin
    (bytes "/signin", bytes "x' OR 'x") (by decide +kernel)
  obtain ⟨hpath, hname⟩ := Prod.mk.inj hvalues
  refine ⟨o, c, b, hrun, hstate, fun hstays => ?_⟩
  have hfree := notMem_of_staysLiteral (Or.inr hpath) hstays
  change quote ∉ c.request.getBody (bytes "username") at hfree
  rw [hname] at hfree
  exact hfree (by decide)

end HydrogenWeb.Application
