import HydrogenWeb.HttpServer

set_option autoImplicit false

/-!
# Responses on the wire

A reader for what `appendToBuffer` writes, made without it: a status line, header lines
split at their first `: ` up to the empty line, and a body of the announced length.
-/
namespace HydrogenWeb
open ListSearch ByteBuffer

def readLine (s : List UInt8) : Option (List UInt8 × List UInt8) :=
  (findPair CR LF s).map fun i => (s.take i, s.drop (i + 2))

def readNumber (s : List UInt8) : Option ℕ :=
  if s ≠ [] ∧ s.all isdigit then some (decimal s) else none

def httpVersion : List UInt8 := bytes "HTTP/1.1 "

def contentLength : List UInt8 := bytes "Content-Length"

def connectionName : List UInt8 := bytes "Connection"

/-- The code and the message of `HTTP/1.1 <code> <message>`. -/
def readStatus (line : List UInt8) : Option (ℕ × List UInt8) :=
  if httpVersion.isPrefixOf line then do
    let rest := line.drop httpVersion.length
    let i ← find (byte ' ') rest
    let code ← readNumber (rest.take i)
    some (code, rest.drop (i + 1))
  else none

def readField (line : List UInt8) : Option (List UInt8 × List UInt8) :=
  (findPair (byte ':') (byte ' ') line).map fun i => (line.take i, line.drop (i + 2))

/-- The header lines up to the empty one, of which there are less than `fuel`. -/
def readFields : ℕ → StringMap → List UInt8 → Option (StringMap × List UInt8)
  | 0, _, _ => none
  | fuel + 1, headers, s => do
    let (line, rest) ← readLine s
    if line = [] then some (headers, rest)
    else
      let (name, value) ← readField line
      readFields fuel (headers.insert name value) rest

structure ReceivedResponse where
  statusCode : ℕ
  statusMsg : List UInt8
  headers : StringMap
  body : List UInt8

/-- The header map is without the two fields of the protocol. -/
def readResponse (s : List UInt8) : Option (ReceivedResponse × List UInt8) := do
  let (line, rest) ← readLine s
  let (statusCode, statusMsg) ← readStatus line
  let (fields, rest) ← readFields s.length ∅ rest
  let length ← fields[contentLength]?.bind readNumber
  if length ≤ rest.length then
    let headers := (fields.erase contentLength).erase connectionName
    some (⟨statusCode, statusMsg, headers, rest.take length⟩, rest.drop length)
  else none

def readResponses : ℕ → List UInt8 → Option (List ReceivedResponse)
  | _, [] => some []
  | 0, _ :: _ => none
  | fuel + 1, s => do
    let (r, rest) ← readResponse s
    let rs ← readResponses fuel rest
    some (r :: rs)

def readAll (s : List UInt8) : Option (List ReceivedResponse) := readResponses s.length s

namespace HttpResponse

def received (r : HttpResponse) : ReceivedResponse := ⟨r.statusCode.value, r.statusMsg, r.headers, r.body⟩

structure Splittable (r : HttpResponse) : Prop where
  persistent : r.closeConnection = false
  message : CR ∉ r.statusMsg ∧ LF ∉ r.statusMsg
  name : ∀ field ∈ r.headers.toList, byte ':' ∉ field.1 ∧ CR ∉ field.1 ∧ LF ∉ field.1 ∧
    field.1 ≠ contentLength ∧ field.1 ≠ connectionName
  value : ∀ field ∈ r.headers.toList, CR ∉ field.2 ∧ LF ∉ field.2
  fits : ("Content-Length: " ++ toString r.body.length ++ "\r\n").length ≤ 31

def statusLine (r : HttpResponse) : List UInt8 :=
  httpVersion ++ bytes (toString r.statusCode.value) ++ byte ' ' :: r.statusMsg

def fieldLine (field : List UInt8 × List UInt8) : List UInt8 := field.1 ++ bytes ": " ++ field.2

def fields (r : HttpResponse) : List (List UInt8 × List UInt8) :=
  (contentLength, bytes (toString r.body.length)) ::
    (connectionName, bytes "keep-alive") :: r.headers.toList

def fieldLines (fields : List (List UInt8 × List UInt8)) : List UInt8 :=
  fields.flatMap fun field => fieldLine field ++ CRLF

def wire (r : HttpResponse) : List UInt8 :=
  r.statusLine ++ CRLF ++ fieldLines r.fields ++ CRLF ++ r.body

theorem bytes_append (s t : String) : bytes (s ++ t) = bytes s ++ bytes t := by
  simp [bytes]

theorem length_bytes (s : String) : (bytes s).length = s.length := by
  rw [bytes, List.length_map, String.length_toList]

theorem snprintf32_status (r : HttpResponse) :
    snprintf32 ("HTTP/1.1 " ++ toString r.statusCode.value ++ " ") =
      httpVersion ++ bytes (toString r.statusCode.value) ++ [byte ' '] := by
  cases r.statusCode <;> decide

/-- Up to the length line, which goes through the buffer of 32 bytes, the text is `wire`. -/
theorem appendToBuffer_persistent {r : HttpResponse} (h : r.closeConnection = false)
    (out : List UInt8) :
    r.appendToBuffer out = out ++ (r.statusLine ++ CRLF ++
      (snprintf32 ("Content-Length: " ++ toString r.body.length ++ "\r\n") ++
        (fieldLines ((connectionName, bytes "keep-alive") :: r.headers.toList) ++ CRLF ++
          r.body))) := by
  have hkeep : bytes "Connection: keep-alive\r\n" =
      fieldLine (connectionName, bytes "keep-alive") ++ CRLF := by decide
  rw [appendToBuffer, h, if_neg (by decide), r.snprintf32_status, hkeep, statusLine, fieldLines]
  simp [fieldLine]

theorem wire_eq (r : HttpResponse) :
    r.wire = r.statusLine ++ CRLF ++
      (bytes ("Content-Length: " ++ toString r.body.length ++ "\r\n") ++
        (fieldLines ((connectionName, bytes "keep-alive") :: r.headers.toList) ++ CRLF ++
          r.body)) := by
  have hlength : bytes ("Content-Length: " ++ toString r.body.length ++ "\r\n") =
      fieldLine (contentLength, bytes (toString r.body.length)) ++ CRLF := by
    have hname : bytes "Content-Length: " = contentLength ++ bytes ": " := by decide
    have hend : bytes "\r\n" = CRLF := by decide
    rw [bytes_append, bytes_append, hname, hend, fieldLine]
  rw [hlength, wire, fields, fieldLines, fieldLines]
  simp

theorem Splittable.appendToBuffer_eq {r : HttpResponse} (h : r.Splittable) (out : List UInt8) :
    r.appendToBuffer out = out ++ r.wire := by
  have hall := h.fits
  rw [← length_bytes] at hall
  rw [appendToBuffer_persistent h.persistent, wire_eq, snprintf32, List.take_of_length_le hall]

theorem drop_pair (pre post : List UInt8) (a b : UInt8) :
    (pre ++ a :: b :: post).drop (pre.length + 2) = post := by
  rw [← List.drop_drop, List.drop_left]
  rfl

theorem readLine_append {line : List UInt8} (h : CR ∉ line) (s : List UInt8) :
    readLine (line ++ CRLF ++ s) = some (line, s) := by
  have hsplit : line ++ CRLF ++ s = line ++ CR :: LF :: s := by simp [CRLF]
  rw [readLine, hsplit, findPair_of_noPair (noPair_of_not_mem (by decide) h), Option.map_some,
    List.take_left, drop_pair]

theorem readField_fieldLine {field : List UInt8 × List UInt8} (h : byte ':' ∉ field.1) :
    readField (fieldLine field) = some field := by
  have hsplit : fieldLine field = field.1 ++ byte ':' :: byte ' ' :: field.2 := by
    have hsep : bytes ": " = [byte ':', byte ' '] := by decide
    rw [fieldLine, hsep, List.append_assoc]
    rfl
  rw [readField, hsplit, findPair_of_noPair (noPair_of_not_mem (by decide) h), Option.map_some,
    List.take_left, drop_pair]

theorem toNat_toUInt8 {c : Char} (h : c.isDigit = true) :
    c.toUInt8.toNat = c.toNat ∧ 48 ≤ c.toNat ∧ c.toNat ≤ 57 := by
  simp only [Char.isDigit, Bool.and_eq_true, decide_eq_true_eq, ge_iff_le,
    UInt32.le_iff_toNat_le] at h
  obtain ⟨hlow, hhigh⟩ := h
  change 48 ≤ c.toNat at hlow
  change c.toNat ≤ 57 at hhigh
  refine ⟨?_, hlow, hhigh⟩
  change c.toNat % 256 = c.toNat
  omega

theorem bytes_toString (n : ℕ) : bytes (toString n) = (Nat.toDigits 10 n).map Char.toUInt8 := by
  rw [bytes, Nat.toString_eq_ofList_toDigits, String.toList_ofList]

theorem isDigit_toDigits {n : ℕ} {c : Char} (h : c ∈ Nat.toDigits 10 n) : c.isDigit = true :=
  Nat.isDigit_of_mem_toDigits (by decide) (by decide) h

theorem isdigit_toString {n : ℕ} {c : UInt8} (h : c ∈ bytes (toString n)) : isdigit c = true := by
  rw [bytes_toString] at h
  obtain ⟨d, hd, rfl⟩ := List.mem_map.1 h
  obtain ⟨hsame, hlow, hhigh⟩ := toNat_toUInt8 (isDigit_toDigits hd)
  simp only [isdigit, byte, Bool.and_eq_true, decide_eq_true_eq, UInt8.le_iff_toNat_le, hsame]
  exact ⟨hlow, hhigh⟩

theorem decimal_map {l : List Char} (h : ∀ c ∈ l, c.isDigit = true) :
    decimal (l.map Char.toUInt8) = Nat.ofDigitChars 10 l 0 := by
  rw [decimal, Nat.ofDigitChars_eq_foldl, List.foldl_map]
  generalize 0 = start
  induction l generalizing start with
  | nil => rfl
  | cons c l ih =>
    obtain ⟨hc, hl⟩ := List.forall_mem_cons.1 h
    rw [List.foldl_cons, List.foldl_cons, (toNat_toUInt8 hc).1]
    exact ih hl _

theorem decimal_toString (n : ℕ) : decimal (bytes (toString n)) = n := by
  rw [bytes_toString, decimal_map fun c => isDigit_toDigits]
  exact Nat.ofDigitChars_ten_toDigits

theorem readNumber_toString (n : ℕ) : readNumber (bytes (toString n)) = some n := by
  have hne : bytes (toString n) ≠ [] := by
    rw [bytes_toString]
    simp
  have hall : (bytes (toString n)).all isdigit = true := List.all_eq_true.2 fun c => isdigit_toString
  rw [readNumber, if_pos ⟨hne, hall⟩, decimal_toString]

theorem not_mem_toString {c : UInt8} (h : isdigit c = false) (n : ℕ) : c ∉ bytes (toString n) := by
  intro hmem
  rw [isdigit_toString hmem] at h
  cases h

theorem readStatus_statusLine (r : HttpResponse) :
    readStatus r.statusLine = some (r.statusCode.value, r.statusMsg) := by
  have hprefix : httpVersion.isPrefixOf r.statusLine = true := by
    rw [statusLine, List.append_assoc, List.isPrefixOf_iff_prefix]
    exact List.prefix_append _ _
  have hrest : r.statusLine.drop httpVersion.length =
      bytes (toString r.statusCode.value) ++ byte ' ' :: r.statusMsg := by
    rw [statusLine, List.append_assoc, List.drop_left]
  have hfind : find (byte ' ') (bytes (toString r.statusCode.value) ++ byte ' ' :: r.statusMsg) =
      some (bytes (toString r.statusCode.value)).length :=
    find_append_cons (not_mem_toString (by decide) r.statusCode.value)
  rw [readStatus, if_pos hprefix, hrest]
  simp only [hfind, Option.bind_eq_bind, Option.bind_some, List.take_left, readNumber_toString,
    drop_past]

theorem fieldLines_cons (field : List UInt8 × List UInt8) (fields : List (List UInt8 × List UInt8)) :
    fieldLines (field :: fields) = fieldLine field ++ CRLF ++ fieldLines fields := by
  simp [fieldLines]

def PlainField (field : List UInt8 × List UInt8) : Prop :=
  byte ':' ∉ field.1 ∧ CR ∉ field.1 ∧ CR ∉ field.2

theorem PlainField.line_free {field : List UInt8 × List UInt8} (h : PlainField field) :
    CR ∉ fieldLine field := by
  have hsep : CR ∉ bytes ": " := by decide
  simp only [fieldLine, List.mem_append, not_or]
  exact ⟨⟨h.2.1, hsep⟩, h.2.2⟩

theorem fieldLine_ne_nil (field : List UInt8 × List UInt8) : fieldLine field ≠ [] := by
  have hsep : bytes ": " ≠ [] := by decide
  simp [fieldLine, hsep]

theorem readFields_fieldLines {fields : List (List UInt8 × List UInt8)}
    (h : ∀ field ∈ fields, PlainField field) {fuel : ℕ} (hfuel : fields.length < fuel)
    (headers : StringMap) (s : List UInt8) :
    readFields fuel headers (fieldLines fields ++ CRLF ++ s) =
      some (fields.foldl (fun m field => m.insert field.1 field.2) headers, s) := by
  induction fields generalizing fuel headers with
  | nil =>
    obtain ⟨fuel, rfl⟩ := Nat.exists_eq_succ_of_ne_zero (Nat.ne_zero_of_lt hfuel)
    have hempty : readLine (CRLF ++ s) = some ([], s) := readLine_append List.not_mem_nil s
    simp [readFields, fieldLines, hempty]
  | cons field fields ih =>
    obtain ⟨fuel, rfl⟩ := Nat.exists_eq_succ_of_ne_zero (Nat.ne_zero_of_lt hfuel)
    obtain ⟨hfield, hfields⟩ := List.forall_mem_cons.1 h
    have hline : readLine (fieldLines (field :: fields) ++ CRLF ++ s) =
        some (fieldLine field, fieldLines fields ++ CRLF ++ s) := by
      rw [fieldLines_cons]
      simpa using readLine_append hfield.line_free (fieldLines fields ++ CRLF ++ s)
    rw [readFields, hline]
    simp only [Option.bind_eq_bind, Option.bind_some, if_neg (fieldLine_ne_nil field),
      readField_fieldLine hfield.1, List.foldl_cons]
    exact ih hfields (by simpa using hfuel) _

theorem not_contains_keys {m : StringMap} {k : List UInt8}
    (h : ∀ field ∈ m.toList, field.1 ≠ k) : (m.toList.map Prod.fst).contains k = false := by
  rw [Bool.eq_false_iff, ne_eq, List.contains_iff_mem]
  intro hmem
  obtain ⟨field, hfield, heq⟩ := List.mem_map.1 hmem
  exact h field hfield heq

theorem getElem?_eq_none_of_toList {m : StringMap} {k : List UInt8}
    (h : ∀ field ∈ m.toList, field.1 ≠ k) : m[k]? = none := by
  rw [Option.eq_none_iff_forall_ne_some]
  intro v hv
  exact h (k, v) (Std.ExtTreeMap.mem_toList_iff_getElem?_eq_some.2 hv) rfl

/-- The map that the lines of a map are read into, behind two other names. -/
theorem erase_insertMany (m : StringMap) {a b : List UInt8} (v w : List UInt8)
    (ha : ∀ field ∈ m.toList, field.1 ≠ a) (hb : ∀ field ∈ m.toList, field.1 ≠ b) :
    (((((∅ : StringMap).insert a v).insert b w).insertMany m.toList).erase a).erase b = m := by
  apply Std.ExtTreeMap.ext_getElem?
  intro k
  rw [Std.ExtTreeMap.getElem?_erase, Std.ExtTreeMap.getElem?_erase]
  simp only [Std.LawfulEqCmp.compare_eq_iff_eq]
  by_cases hkb : b = k
  · rw [if_pos hkb, ← hkb, getElem?_eq_none_of_toList hb]
  by_cases hka : a = k
  · rw [if_neg hkb, if_pos hka, ← hka, getElem?_eq_none_of_toList ha]
  rw [if_neg hkb, if_neg hka]
  cases hget : m[k]? with
  | none =>
    have hout : ∀ field ∈ m.toList, field.1 ≠ k := by
      rintro ⟨x, y⟩ hfield rfl
      rw [Std.ExtTreeMap.mem_toList_iff_getElem?_eq_some.1 hfield] at hget
      cases hget
    rw [Std.ExtTreeMap.getElem?_insertMany_list_of_contains_eq_false (not_contains_keys hout),
      Std.ExtTreeMap.getElem?_insert, Std.ExtTreeMap.getElem?_insert]
    simp [hka, hkb]
  | some y =>
    apply Std.ExtTreeMap.getElem?_insertMany_list_of_mem (k := k)
    · simp
    · exact Std.ExtTreeMap.distinct_keys_toList
    · exact Std.ExtTreeMap.mem_toList_iff_getElem?_eq_some.2 hget

theorem getElem?_insertMany_first (m : StringMap) {a b : List UInt8} (v w : List UInt8)
    (hab : b ≠ a) (ha : ∀ field ∈ m.toList, field.1 ≠ a) :
    ((((∅ : StringMap).insert a v).insert b w).insertMany m.toList)[a]? = some v := by
  rw [Std.ExtTreeMap.getElem?_insertMany_list_of_contains_eq_false (not_contains_keys ha),
    Std.ExtTreeMap.getElem?_insert]
  simp [hab]

theorem Splittable.plain {r : HttpResponse} (h : r.Splittable) :
    ∀ field ∈ r.fields, PlainField field := by
  intro field hfield
  rcases List.mem_cons.1 hfield with rfl | hfield
  · have hname : byte ':' ∉ contentLength ∧ CR ∉ contentLength := by decide
    exact ⟨hname.1, hname.2, not_mem_toString (by decide) _⟩
  rcases List.mem_cons.1 hfield with rfl | hfield
  · exact ⟨by decide, by decide, by decide⟩
  · exact ⟨(h.name field hfield).1, (h.name field hfield).2.1, (h.value field hfield).1⟩

theorem Splittable.statusLine_free {r : HttpResponse} (h : r.Splittable) :
    CR ∉ r.statusLine := by
  have hversion : CR ∉ httpVersion := by decide
  have hnumber := not_mem_toString (c := CR) (by decide) r.statusCode.value
  simp only [statusLine, List.mem_append, List.mem_cons, not_or]
  exact ⟨⟨hversion, hnumber⟩, by decide, h.message.1⟩

theorem length_le_fieldLines (fields : List (List UInt8 × List UInt8)) :
    fields.length ≤ (fieldLines fields).length := by
  induction fields with
  | nil => exact Nat.zero_le _
  | cons field fields ih =>
    rw [fieldLines_cons]
    simp only [List.length_append, List.length_cons, CRLF]
    omega

theorem Splittable.readResponse_wire {r : HttpResponse} (h : r.Splittable) (tail : List UInt8) :
    readResponse (r.wire ++ tail) = some (r.received, tail) := by
  have hsplit : r.wire ++ tail =
      r.statusLine ++ CRLF ++ (fieldLines r.fields ++ CRLF ++ (r.body ++ tail)) := by
    simp [wire]
  have hfuel : r.fields.length < (r.wire ++ tail).length := by
    have := length_le_fieldLines r.fields
    rw [hsplit]
    simp only [List.length_append, CRLF, List.length_cons]
    omega
  have hline := readLine_append h.statusLine_free (fieldLines r.fields ++ CRLF ++ (r.body ++ tail))
  have hread := readFields_fieldLines h.plain hfuel ∅ (r.body ++ tail)
  rw [fields, List.foldl_cons, List.foldl_cons, ← Std.ExtTreeMap.insertMany_list_eq_foldl] at hread
  have hlength := getElem?_insertMany_first r.headers (bytes (toString r.body.length))
    (bytes "keep-alive") (by decide : connectionName ≠ contentLength)
    fun field hfield => (h.name field hfield).2.2.2.1
  have hheaders := erase_insertMany r.headers (bytes (toString r.body.length))
    (bytes "keep-alive") (fun field hfield => (h.name field hfield).2.2.2.1)
    fun field hfield => (h.name field hfield).2.2.2.2
  have hbody : r.body.length ≤ (r.body ++ tail).length := by simp
  rw [← hsplit] at hline
  rw [readResponse, hline]
  simp only [Option.bind_eq_bind, Option.bind_some, readStatus_statusLine, fields] at hread ⊢
  rw [hread]
  simp only [Option.bind_some, hlength, readNumber_toString, if_pos hbody, hheaders,
    List.take_left, List.drop_left, received]

def appendAll (rs : List HttpResponse) : List UInt8 :=
  rs.foldl (fun outputBuffer r => r.appendToBuffer outputBuffer) []

theorem appendAll_eq {rs : List HttpResponse} (h : ∀ r ∈ rs, r.Splittable) :
    appendAll rs = rs.flatMap wire := by
  have hfold : ∀ out, rs.foldl (fun outputBuffer r => r.appendToBuffer outputBuffer) out =
      out ++ rs.flatMap wire := by
    induction rs with
    | nil => simp
    | cons r rs ih =>
      obtain ⟨hr, hrs⟩ := List.forall_mem_cons.1 h
      intro out
      rw [List.foldl_cons, ih hrs, hr.appendToBuffer_eq, List.flatMap_cons, List.append_assoc]
  exact hfold []

theorem wire_pos (r : HttpResponse) : 0 < r.wire.length := by
  simp only [wire, List.length_append, CRLF, List.length_cons]
  omega

theorem readResponses_succ (fuel : ℕ) {s : List UInt8} (h : s ≠ []) :
    readResponses (fuel + 1) s = (readResponse s).bind fun x =>
      (readResponses fuel x.2).bind fun rs => some (x.1 :: rs) := by
  obtain ⟨c, l, rfl⟩ := List.exists_cons_of_ne_nil h
  rfl

theorem readResponses_wire {rs : List HttpResponse} (h : ∀ r ∈ rs, r.Splittable) {fuel : ℕ}
    (hfuel : (rs.flatMap wire).length ≤ fuel) :
    readResponses fuel (rs.flatMap wire) = some (rs.map received) := by
  induction rs generalizing fuel with
  | nil => cases fuel <;> rfl
  | cons r rs ih =>
    obtain ⟨hr, hrs⟩ := List.forall_mem_cons.1 h
    have hpos := r.wire_pos
    rw [List.flatMap_cons] at hfuel ⊢
    rw [List.length_append] at hfuel
    obtain ⟨fuel, rfl⟩ := Nat.exists_eq_succ_of_ne_zero (n := fuel) (by omega)
    have hne : r.wire ++ rs.flatMap wire ≠ [] := by
      apply List.append_ne_nil_of_left_ne_nil
      exact List.ne_nil_of_length_pos hpos
    have hrest : readResponses fuel (rs.flatMap wire) = some (rs.map received) :=
      ih hrs (by omega)
    rw [readResponses_succ fuel hne, hr.readResponse_wire, Option.bind_some, hrest,
      Option.bind_some, List.map_cons]

/-- The bytes of any list of persistent responses are split back into exactly them. -/
theorem readAll_appendAll (rs : List HttpResponse) (h : ∀ r ∈ rs, r.Splittable) :
    readAll (appendAll rs) = some (rs.map received) := by
  rw [appendAll_eq h]
  exact readResponses_wire h le_rfl

/-- A body that looks like the end of a head with another response behind it. -/
def trickyResponse : HttpResponse where
  headers := (∅ : StringMap).insert (bytes "Content-Type") (bytes "text/plain: x")
  statusCode := .OK200
  statusMsg := bytes "All OK"
  closeConnection := false
  body := bytes "\r\n\r\nHTTP/1.1 200 OK\r\nContent-Length: 9\r\n\r\n"

theorem trickyResponse_splittable : trickyResponse.Splittable := by
  have hheaders : trickyResponse.headers.toList =
      [(bytes "Content-Type", bytes "text/plain: x")] := by decide +kernel
  constructor
  · rfl
  · decide
  · rw [hheaders]
    decide
  · rw [hheaders]
    decide
  · decide +kernel

theorem readAll_appendAll_of_two : readAll (appendAll [trickyResponse, trickyResponse]) =
    some [trickyResponse.received, trickyResponse.received] :=
  readAll_appendAll [trickyResponse, trickyResponse] (by
    intro r hr
    have : r = trickyResponse := by simpa using hr
    exact this ▸ trickyResponse_splittable)

end HttpResponse
end HydrogenWeb
