/-
# A whole control session on one socket

The futures of `RemoteControl` one after the other, and the client of
`doro-test/src/client_base.rs`.

* `await` polls a future until it is ready; what it returns and what it leaves in the socket is
  what the parser makes of the delivered bytes (`await_eq_ok`, `exists_await`), however they are
  fragmented;
* `Reads` says that a list of messages is read by as many futures, each handing over at the exact
  byte;
* `packRequest` and `responseParse` are the client's encoder and parser;
* `session_iff`: requests are always recovered, responses exactly if their data has fewer than
  2^32 bytes.
-/
import Dorodoro.RemoteControl

open FrameReader

/-! ## Awaiting a future -/

section Await

variable {S T : Type} (M : Machine S (FutureRet T))

/-- Poll at most `k` times. -/
def awaitN : ℕ → Fut S → Source IoErrorKind → Option (FutureRet T × Source IoErrorKind)
  | 0, _, _ => none
  | k + 1, f, t =>
      match pinPoll M f t with
      | (.ready r, _, t') => some (r, t')
      | (.pending, f', t') => awaitN k f' t'

/-- `.await`: poll until the future is ready.  Every poll takes an event from the socket. -/
def await (f : Fut S) (t : Source IoErrorKind) : Option (FutureRet T × Source IoErrorKind) :=
  awaitN M (t.length + 1) f t

variable {M}

theorem awaitN_ok {a : T} {t' : Source IoErrorKind} {k : ℕ} :
    ∀ {f : Fut S} {t : Source IoErrorKind}, f.reader.Open →
      awaitN M k f t = some (.ok a, t') → M.view f t = some (.ok a, delivered t') := by
  induction k with
  | zero => intro f t _ h; cases h
  | succ k ih =>
      intro f t hopen h
      rw [awaitN] at h
      split at h
      · next r f₁ t₁ hp =>
          simp only [Option.some.injEq, Prod.mk.injEq] at h
          obtain ⟨rfl, rfl⟩ := h
          exact pinPoll_ok hopen hp
      · next f₁ t₁ hp =>
          obtain ⟨hopen₁, hview⟩ := pinPoll_pending hopen hp
          rw [← hview]
          exact ih hopen₁ h

/-- What an awaited future returns is the value of the parser on the delivered bytes. -/
theorem await_eq_ok {a : T} {f : Fut S} {t t' : Source IoErrorKind} (hopen : f.reader.Open)
    (h : await M f t = some (.ok a, t')) : M.view f t = some (.ok a, delivered t') :=
  awaitN_ok hopen h

theorem exists_awaitN {a : T} {rest : Bytes} {k : ℕ} :
    ∀ {f : Fut S} {t : Source IoErrorKind}, f.reader.Open → t.length < k →
      M.view f t = some (.ok a, rest) →
      ∃ t', awaitN M k f t = some (.ok a, t') ∧ delivered t' = rest := by
  induction k with
  | zero => intro f t _ hk; omega
  | succ k ih =>
      intro f t hopen hk hv
      rcases M.pollN_cases .connectionAborted f t hopen (Nat.lt_succ_self _) with
        ⟨f', t', he, hopen', hview, hlen⟩ | ⟨e, f', t', he, hnone⟩ | ⟨x, f', t', he, hx⟩
      · have hpoll : pinPoll M f t = (.pending, f', t') := by rw [pinPoll, Machine.poll, he]
        -- a poll that takes no event from the socket leads nowhere
        rcases hlen with hlen | hnone
        · obtain ⟨t'', hawait, hrest⟩ := ih hopen' (by omega) (hview.trans hv)
          exact ⟨t'', by rw [awaitN, hpoll]; exact hawait, hrest⟩
        · rw [hv] at hnone
          cases hnone
      · rw [hv] at hnone
        cases hnone
      · rw [hv, Option.some.injEq, Prod.mk.injEq] at hx
        obtain ⟨rfl, rfl⟩ := hx
        have hpoll : pinPoll M f t = (.ready (.ok a), f', t') := by
          rw [pinPoll, Machine.poll, he]
          rfl
        exact ⟨t', by rw [awaitN, hpoll], rfl⟩

/-- **A future that can finish does**, and leaves the rest of the bytes. -/
theorem exists_await {n : ℕ} {s : S} {a : T} {rest : Bytes} {t : Source IoErrorKind}
    (h : M.parse n s (delivered t) = some (.ok a, rest)) :
    ∃ t', await M ⟨.new n, s⟩ t = some (.ok a, t') ∧ delivered t' = rest :=
  exists_awaitN (ExactReader.open_new n) (Nat.lt_succ_self _) (by rw [M.view_new, h])

/-- `Reads M f enc val xs rest t`: futures `f`, awaited one after the other on the socket `t`,
return the messages `xs`, and each leaves the bytes of the following messages and `rest`. -/
def Reads (M : Machine S (FutureRet T)) (f : Fut S) {X : Type} (enc : X → Bytes) (val : X → T) :
    List X → Bytes → Source IoErrorKind → Prop
  | [], rest, t => delivered t = rest
  | x :: xs, rest, t => ∃ t', await M f t = some (.ok (val x), t') ∧
      delivered t' = xs.flatMap enc ++ rest ∧ Reads M f enc val xs rest t'

/-- Messages that are parsed one by one are read in order. -/
theorem reads_of_parse {X : Type} {enc : X → Bytes} {val : X → T} {n : ℕ} {s : S} {rest : Bytes}
    {xs : List X} (h : ∀ x ∈ xs, ∀ tail, M.parse n s (enc x ++ tail) = some (.ok (val x), tail)) :
    ∀ {t : Source IoErrorKind}, delivered t = xs.flatMap enc ++ rest →
      Reads M ⟨.new n, s⟩ enc val xs rest t := by
  induction xs with
  | nil =>
      intro t ht
      exact ht
  | cons x xs ih =>
      intro t ht
      obtain ⟨t', hawait, hrest⟩ := exists_await (M := M) (n := n) (s := s) (t := t)
        (by rw [ht, List.flatMap_cons, List.append_assoc]; exact h x List.mem_cons_self _)
      exact ⟨t', hawait, hrest, ih (fun y hy => h y (List.mem_cons_of_mem x hy)) hrest⟩

/-- What is read is a value of the parser. -/
theorem Reads.parsed {X : Type} {enc : X → Bytes} {val : X → T} {n : ℕ} {s : S} {rest : Bytes}
    {xs : List X} : ∀ {t : Source IoErrorKind}, Reads M ⟨.new n, s⟩ enc val xs rest t →
      ∀ x ∈ xs, ∃ bs tail, M.parse n s bs = some (.ok (val x), tail) := by
  induction xs with
  | nil => intro t _ x hx; cases hx
  | cons y xs ih =>
      intro t h x hx
      obtain ⟨t', hawait, -, hrest⟩ := h
      rcases List.mem_cons.mp hx with rfl | hx
      · have hview := await_eq_ok (ExactReader.open_new n) hawait
        rw [M.view_new] at hview
        exact ⟨_, _, hview⟩
      · exact ih hrest x hx

end Await

/-! ## Requests of the client -/

/-- `Client::request`: the bytes of a request whose body is given. -/
def packRequest (r : Request) : Bytes :=
  toBeBytes codeSize r.code ++ toBeBytes tranIdSize r.tranId ++
    match r.data with
    | some data => toBeBytes lengthSize data.length ++ data
    | none => toBeBytes lengthSize 0

/-- Code and id are `u32`, and a body is neither empty nor longer than its length field can say. -/
structure Request.Encodable (r : Request) : Prop where
  code_lt : r.code < 2 ^ 32
  tranId_lt : r.tranId < 2 ^ 32
  data_pos : ∀ d ∈ r.data, d ≠ []
  data_lt : ∀ d ∈ r.data, d.length < 2 ^ 32

/-- The field behind `l`. -/
theorem fromBeSlice_drop {size n k : ℕ} {l tail : Bytes} (hl : l.length = k)
    (hn : n < 256 ^ size) : fromBeSlice size ((l ++ (toBeBytes size n ++ tail)).drop k) = n := by
  rw [List.drop_left' hl, fromBeSlice_append _ _ _ (length_toBeBytes size n),
    fromBeSlice_toBeBytes size n hn]

/-- The head of a request. -/
def requestHead (code tranId length : ℕ) : Bytes :=
  toBeBytes codeSize code ++ (toBeBytes tranIdSize tranId ++ (toBeBytes lengthSize length ++ []))

theorem length_requestHead (code tranId length : ℕ) :
    (requestHead code tranId length).length = codeSize + tranIdSize + lengthSize := by
  simp [requestHead, codeSize, tranIdSize, lengthSize]

theorem requestNext_head {code tranId length : ℕ} (hcode : code < 2 ^ 32)
    (htran : tranId < 2 ^ 32) (hlen : length < 2 ^ 32) :
    requestParse.next .head (requestHead code tranId length) =
      if length = 0 then .done (.ok ⟨code, tranId, none⟩) .finished
      else .more length (.content code tranId) := by
  have h256 : 2 ^ 32 = 256 ^ 4 := by norm_num
  rw [h256] at hcode htran hlen
  have h₀ : fromBeSlice codeSize (requestHead code tranId length) = code :=
    fromBeSlice_drop (l := []) (k := 0) rfl hcode
  have h₁ : fromBeSlice tranIdSize ((requestHead code tranId length).drop codeSize) = tranId :=
    fromBeSlice_drop (length_toBeBytes _ _) htran
  have h₂ : fromBeSlice lengthSize
      ((requestHead code tranId length).drop (codeSize + tranIdSize)) = length := by
    rw [requestHead, ← List.append_assoc]
    exact fromBeSlice_drop (by simp) hlen
  show requestNext .head _ = _
  simp only [requestNext, h₀, h₁, h₂]

/-- **`RequestParse` reads back what the client wrote.** -/
theorem requestParse_packRequest {r : Request} (h : r.Encodable) (tail : Bytes) :
    requestParse.parse (codeSize + tranIdSize + lengthSize) .head (packRequest r ++ tail) =
      some (.ok r, tail) := by
  obtain ⟨code, tranId, data⟩ := r
  obtain ⟨hcode, htran, hpos, hlt⟩ := h
  -- a length of zero ends the request at its head
  cases data with
  | none =>
      have hbs : packRequest ⟨code, tranId, none⟩ ++ tail = requestHead code tranId 0 ++ tail := by
        simp [packRequest, requestHead]
      have hlen := length_requestHead code tranId 0
      rw [hbs, requestParse.parse_of_done (a := .ok ⟨code, tranId, none⟩) (t := .finished),
        List.drop_left' hlen]
      · rw [List.length_append, hlen]
        omega
      · rw [List.take_left' hlen, requestNext_head hcode htran (by norm_num), if_pos rfl]
  | some d =>
      have hbs : packRequest ⟨code, tranId, some d⟩ ++ tail =
          requestHead code tranId d.length ++ (d ++ tail) := by
        simp [packRequest, requestHead]
      have hlen := length_requestHead code tranId d.length
      have hne : d.length ≠ 0 := fun hz => hpos d rfl (List.length_eq_zero_iff.mp hz)
      rw [hbs, requestParse.parse_of_more (m := d.length) (t := .content code tranId),
        List.drop_left' hlen, requestParse.parse_of_done (a := .ok ⟨code, tranId, some d⟩)
          (t := .finished), List.drop_left]
      · rw [List.length_append]
        omega
      · rw [List.take_left]
        rfl
      · rw [List.length_append, hlen]
        omega
      · rw [List.take_left' hlen, requestNext_head hcode htran (hlt d rfl), if_neg hne]

/-! ## Responses -/

/-- `STATUS_SIZE`. -/
def statusSize : ℕ := 4

/-- What `ResponseParse` returns. -/
structure ResponseRet where
  code : ℕ
  tranId : ℕ
  status : ℕ
  data : Bytes
  deriving DecidableEq

/-- `ResponseParseState`. -/
inductive ResponseState where
  | head
  | content (code tranId status : ℕ)
  | finished
  deriving DecidableEq

/-- `ResponseParse::poll` on a full buffer. -/
def responseNext : ResponseState → Bytes → Reply ResponseState (FutureRet ResponseRet)
  | .head, buf =>
      let code := fromBeSlice codeSize buf
      let tranId := fromBeSlice tranIdSize (buf.drop codeSize)
      let status := fromBeSlice statusSize (buf.drop (codeSize + tranIdSize))
      let length := fromBeSlice lengthSize (buf.drop (codeSize + tranIdSize + statusSize))
      if length = 0 then .done (.ok ⟨code, tranId, status, []⟩) .finished
      else .more length (.content code tranId status)
  | .content code tranId status, buf => .done (.ok ⟨code, tranId, status, buf⟩) .finished
  | .finished, _ => .done (.error .permissionDenied) .finished

/-- `ResponseParse`. -/
def responseParse : Machine ResponseState (FutureRet ResponseRet) where
  next := responseNext
  rank := fun
    | .head => 2
    | .content _ _ _ => 1
    | .finished => 0
  rank_lt := by
    intro s buf n s' h
    cases s with
    | head =>
        simp only [responseNext] at h
        split at h
        · cases h
        · simp only [Reply.more.injEq] at h
          simp [← h.2]
    | content code tranId status => cases h
    | finished => cases h

/-- `ResponseParse::new`. -/
def ResponseParse.new : Fut ResponseState :=
  ⟨.new (codeSize + tranIdSize + statusSize + lengthSize), .head⟩

/-- Code, id, status and data of a packet. -/
def ControlResponsePacket.ret : ControlResponsePacket → ResponseRet
  | .ok code tranId data => ⟨code, tranId, ControlStatus.ok.code, data⟩
  | .error code tranId status message => ⟨code, tranId, status.code, message.toUTF8.toList⟩

/-- Code and id are `u32`. -/
structure ControlResponsePacket.InRange (p : ControlResponsePacket) : Prop where
  code_lt : p.ret.code < 2 ^ 32
  tranId_lt : p.ret.tranId < 2 ^ 32

/-- The head of a response. -/
def responseHead (code tranId status length : ℕ) : Bytes :=
  toBeBytes codeSize code ++ (toBeBytes tranIdSize tranId ++
    (toBeBytes statusSize status ++ (toBeBytes lengthSize length ++ [])))

theorem length_responseHead (code tranId status length : ℕ) :
    (responseHead code tranId status length).length =
      codeSize + tranIdSize + statusSize + lengthSize := by
  simp [responseHead, codeSize, tranIdSize, statusSize, lengthSize]

theorem responseNext_head {code tranId status length : ℕ} (hcode : code < 2 ^ 32)
    (htran : tranId < 2 ^ 32) (hstatus : status < 2 ^ 32) (hlen : length < 2 ^ 32) :
    responseParse.next .head (responseHead code tranId status length) =
      if length = 0 then .done (.ok ⟨code, tranId, status, []⟩) .finished
      else .more length (.content code tranId status) := by
  have h256 : 2 ^ 32 = 256 ^ 4 := by norm_num
  rw [h256] at hcode htran hstatus hlen
  have h₀ : fromBeSlice codeSize (responseHead code tranId status length) = code :=
    fromBeSlice_drop (l := []) (k := 0) rfl hcode
  have h₁ : fromBeSlice tranIdSize ((responseHead code tranId status length).drop codeSize) =
      tranId := fromBeSlice_drop (length_toBeBytes _ _) htran
  have h₂ : fromBeSlice statusSize
      ((responseHead code tranId status length).drop (codeSize + tranIdSize)) = status := by
    rw [responseHead, ← List.append_assoc]
    exact fromBeSlice_drop (by simp) hstatus
  have h₃ : fromBeSlice lengthSize
      ((responseHead code tranId status length).drop (codeSize + tranIdSize + statusSize)) =
        length := by
    rw [responseHead, ← List.append_assoc, ← List.append_assoc]
    exact fromBeSlice_drop (by simp [Nat.add_assoc]) hlen
  show responseNext .head _ = _
  simp only [responseNext, h₀, h₁, h₂, h₃]

theorem length_toList_loop (bs : ByteArray) (i : ℕ) (r : Bytes) :
    (ByteArray.toList.loop bs i r).length = r.length + (bs.size - i) := by
  fun_induction ByteArray.toList.loop bs i r with
  | case1 i r hlt ih =>
      rw [ih, List.length_cons]
      omega
  | case2 i r hge =>
      rw [List.length_reverse]
      omega

theorem length_toList_toUTF8 (s : String) : s.toUTF8.toList.length = s.toUTF8.size := by
  rw [ByteArray.toList, length_toList_loop, List.length_nil]
  omega

theorem packResponse_eq (p : ControlResponsePacket) :
    packResponse p = responseHead p.ret.code p.ret.tranId p.ret.status p.ret.data.length ++
      p.ret.data := by
  cases p with
  | ok code tranId data =>
      simp [packResponse, responseHead, ControlResponsePacket.ret, codeSize, tranIdSize, statusSize,
        lengthSize]
  | error code tranId status message =>
      simp only [packResponse, responseHead, ControlResponsePacket.ret, codeSize, tranIdSize,
        statusSize, lengthSize, length_toList_toUTF8, List.append_assoc, List.nil_append]

theorem ControlStatus.code_lt (c : ControlStatus) : c.code < 2 ^ 32 := by
  cases c <;> decide

theorem ControlResponsePacket.status_lt (p : ControlResponsePacket) : p.ret.status < 2 ^ 32 := by
  cases p with
  | ok code tranId data => exact ControlStatus.ok.code_lt
  | error code tranId status message => exact status.code_lt

/-- **`ResponseParse` reads back what the server wrote**, if the length field can say it. -/
theorem responseParse_packResponse {p : ControlResponsePacket} (h : p.InRange)
    (hlt : p.ret.data.length < 2 ^ 32) (tail : Bytes) :
    responseParse.parse (codeSize + tranIdSize + statusSize + lengthSize) .head
      (packResponse p ++ tail) = some (.ok p.ret, tail) := by
  have hlen := length_responseHead p.ret.code p.ret.tranId p.ret.status p.ret.data.length
  have hnext := responseNext_head h.code_lt h.tranId_lt p.status_lt hlt
  rw [packResponse_eq, List.append_assoc]
  by_cases hzero : p.ret.data.length = 0
  · rw [responseParse.parse_of_done (a := .ok p.ret) (t := .finished), List.drop_left' hlen,
      List.length_eq_zero_iff.mp hzero, List.nil_append]
    · rw [List.length_append, hlen]
      omega
    · rw [List.take_left' hlen, hnext, if_pos hzero, ← List.length_eq_zero_iff.mp hzero]
  · rw [responseParse.parse_of_more (m := p.ret.data.length)
        (t := .content p.ret.code p.ret.tranId p.ret.status), List.drop_left' hlen,
      responseParse.parse_of_done (a := .ok p.ret) (t := .finished), List.drop_left]
    · rw [List.length_append]
      omega
    · rw [List.take_left]
      rfl
    · rw [List.length_append, hlen]
      omega
    · rw [List.take_left' hlen, hnext, if_neg hzero]

/-- `ResponseParse` never returns more data than a length field can say. -/
theorem responseParse_data_lt {bs tail : Bytes} {v : ResponseRet}
    (h : responseParse.parse (codeSize + tranIdSize + statusSize + lengthSize) .head bs =
      some (.ok v, tail)) : v.data.length < 2 ^ 32 := by
  rw [responseParse.parse_eq_some_iff] at h
  obtain ⟨hle, ⟨s', hnext, -⟩ | ⟨n, s', hnext, hrest⟩⟩ := h
  · simp only [responseParse, responseNext] at hnext
    split at hnext
    · simp only [Reply.done.injEq, Except.ok.injEq] at hnext
      rw [← hnext.1]
      norm_num
    · cases hnext
  · simp only [responseParse, responseNext] at hnext
    split at hnext
    · cases hnext
    · simp only [Reply.more.injEq] at hnext
      obtain ⟨rfl, rfl⟩ := hnext
      rw [responseParse.parse_iff_of_done fun _ => rfl] at hrest
      obtain ⟨data, hlen, -, hv⟩ := hrest
      obtain rfl := Except.ok.inj hv
      show data.length < 2 ^ 32
      rw [hlen]
      refine lt_of_lt_of_eq (fromBeSlice_lt _ lengthSize ?_) (by norm_num [lengthSize])
      rw [List.length_drop, List.length_take, min_eq_left hle]
      rfl

/-! ## The session -/

/-- The server's side: protocol, credentials and requests are read in this order, and each future
leaves the bytes that follow. -/
def SessionRead (info : AuthInfo) (reqs : List Request) (rest : Bytes)
    (t : Source IoErrorKind) : Prop :=
  ∃ t₁ t₂, await accept Accept.new t = some (.ok ⟨.remoteControl, []⟩, t₁) ∧
    delivered t₁ = credentials info ++ (reqs.flatMap packRequest ++ rest) ∧
    await handshakeParse HandshakeParse.new t₁ = some (.ok info, t₂) ∧
    delivered t₂ = reqs.flatMap packRequest ++ rest ∧
    Reads requestParse RequestParse.new packRequest id reqs rest t₂

/-- The client's side: the responses are read in order. -/
def ResponsesRead (packets : List ControlResponsePacket) (rest : Bytes)
    (t : Source IoErrorKind) : Prop :=
  Reads responseParse ResponseParse.new packResponse ControlResponsePacket.ret packets rest t

/-- **The server recovers the session.** -/
theorem sessionRead {info : AuthInfo} {reqs : List Request} {rest : Bytes}
    {t : Source IoErrorKind} (hu : info.username.length < 65536)
    (hp : info.password.length < 65536) (hreqs : ∀ r ∈ reqs, r.Encodable)
    (ht : delivered t = handshakeRequest info ++ (reqs.flatMap packRequest ++ rest)) :
    SessionRead info reqs rest t := by
  have h256 : 256 ^ usernameLenSize = 65536 ∧ 256 ^ passwordLenSize = 65536 := by decide
  obtain ⟨t₁, haccept, h₁⟩ := exists_await (M := accept) (t := t) (accept_parse_remoteControl.mpr
    ⟨by rw [ht, handshakeRequest, List.append_assoc], rfl⟩)
  obtain ⟨t₂, hhandshake, h₂⟩ := exists_await (M := handshakeParse) (t := t₁)
    (handshakeParse_parse.mpr ⟨h256.1.symm ▸ hu, h256.2.symm ▸ hp, by rw [h₁, credentials]⟩)
  exact ⟨t₁, t₂, haccept, h₁, hhandshake, h₂,
    reads_of_parse (fun r hr tail => requestParse_packRequest (hreqs r hr) tail) h₂⟩

/-- **The client recovers the responses exactly if their lengths fit the length field.** -/
theorem responsesRead_iff {packets : List ControlResponsePacket} {rest : Bytes}
    {t : Source IoErrorKind} (hpk : ∀ p ∈ packets, p.InRange)
    (ht : delivered t = packets.flatMap packResponse ++ rest) :
    ResponsesRead packets rest t ↔ ∀ p ∈ packets, p.ret.data.length < 2 ^ 32 := by
  constructor
  · intro h p hp
    obtain ⟨bs, tail, hparse⟩ := Reads.parsed h p hp
    exact responseParse_data_lt hparse
  · intro h
    exact reads_of_parse (fun p hp tail => responseParse_packResponse (hpk p hp) (h p hp) tail) ht

/-- **Control sessions are recovered exactly if no response has 2^32 bytes of data or more**: for
all credentials, requests and responses, and every fragmentation of the two byte streams. -/
theorem session_iff {info : AuthInfo} {reqs : List Request} {packets : List ControlResponsePacket}
    {rest rest' : Bytes} {t t' : Source IoErrorKind} (hu : info.username.length ≤ 65535)
    (hp : info.password.length ≤ 65535) (hreqs : ∀ r ∈ reqs, r.Encodable)
    (hpk : ∀ p ∈ packets, p.InRange)
    (ht : delivered t = handshakeRequest info ++ (reqs.flatMap packRequest ++ rest))
    (ht' : delivered t' = packets.flatMap packResponse ++ rest') :
    SessionRead info reqs rest t ∧ ResponsesRead packets rest' t' ↔
      ∀ p ∈ packets, p.ret.data.length < 2 ^ 32 := by
  constructor
  · rintro ⟨-, h⟩
    exact (responsesRead_iff hpk ht').mp h
  · intro h
    exact ⟨sessionRead (by omega) (by omega) hreqs ht, (responsesRead_iff hpk ht').mpr h⟩

/-- Two requests after a handshake with an empty password, in two reads, and two responses. -/
theorem session_iff_two :
    ∃ t t', t.length = 3 ∧
      SessionRead ⟨[97], []⟩ [⟨1, 0, none⟩, ⟨2, 1, some [123, 125]⟩] [] t ∧
      ResponsesRead [.ok 1 0 [], .error 2 1 .serverError "e"] [] t' := by
  refine ⟨[.data [23], .pending, .data ((handshakeRequest ⟨[97], []⟩ ++
    [⟨1, 0, none⟩, ⟨2, 1, some [123, 125]⟩].flatMap packRequest).drop 1)],
    [.data ([.ok 1 0 [], .error 2 1 .serverError "e"].flatMap packResponse)], rfl, ?_⟩
  refine (session_iff (by decide) (by decide) ?_ ?_ (by decide +kernel) (by decide +kernel)).mpr
    (by decide +kernel)
  · refine List.forall_mem_cons.mpr ⟨⟨by decide, by decide, by simp, by simp⟩,
      List.forall_mem_singleton.mpr ⟨by decide, by decide, by simp, by simp⟩⟩
  · exact List.forall_mem_cons.mpr ⟨⟨by decide, by decide⟩,
      List.forall_mem_singleton.mpr ⟨by decide, by decide⟩⟩

/-- **A response that is not recovered**: 2^32 bytes of data are announced as none. -/
theorem long_response_lost : ¬ ∀ (packets : List ControlResponsePacket) (rest : Bytes)
    (t : Source IoErrorKind), (∀ p ∈ packets, p.InRange) →
    delivered t = packets.flatMap packResponse ++ rest → ResponsesRead packets rest t := by
  intro hall
  have hin : ∀ p ∈ [ControlResponsePacket.ok 0 0 (List.replicate (2 ^ 32) 0)], p.InRange := by
    intro p hp
    obtain rfl := List.mem_singleton.mp hp
    exact ⟨show 0 < 2 ^ 32 by norm_num, show 0 < 2 ^ 32 by norm_num⟩
  have ht := delivered_pushBack (ε := IoErrorKind)
    ([ControlResponsePacket.ok 0 0 (List.replicate (2 ^ 32) 0)].flatMap packResponse) []
  have hlt := (responsesRead_iff hin ht).mp (hall _ [] _ hin ht) _ (List.mem_singleton_self _)
  rw [ControlResponsePacket.ret, List.length_replicate] at hlt
  exact lt_irrefl _ hlt
