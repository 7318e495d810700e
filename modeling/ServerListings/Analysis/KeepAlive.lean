import ServerListings.Interface.Exchanges

/-!
# Requests on a connection that is kept

After a response `write` calls `init()`, which clears the read buffer. So the requests of a
connection are answered one by one, whatever pieces they arrive in, as long as `read` takes
nothing of a request before the response to the one before was sent; what it takes beyond the
end of a request is dropped.
-/

set_option autoImplicit false

namespace ServerListings.Analysis.KeepAlive

open Lib.CMem Lib.LineReader ServerListings.Model ServerListings.Model.Http ServerListings.Interface

/-- A request without a body that asks to keep the connection: the reader accepts it with its
last byte. -/
structure KeepAliveRequest (request : List UInt8) (h : HeadState) : Prop where
  whole : readHead request = .error (.request h)
  notBefore : ∃ st, readHead request.dropLast = .ok st
  linger : h.linger = true

/-- A request on the wire: the chunks that `read` takes, and what its response meets with. -/
structure Arrival where
  request : List UInt8
  chunks : List (List UInt8)
  files : FileSystem
  mapped : Int → List UInt8
  writes : List (List WritevResult)

def Arrival.delivery (g : Arrival) (data : List UInt8) : Delivery :=
  ⟨data, g.files, g.mapped, g.writes⟩

def Arrival.deliveries (g : Arrival) : List Delivery := g.chunks.map g.delivery

/-- The chunks carry the request; the last one completes it, and may carry more bytes. They
leave room in the read buffer. -/
structure Arrival.Apart (g : Arrival) : Prop where
  nonempty : ∀ data ∈ g.chunks, data ≠ []
  whole : g.request <+: g.chunks.flatten
  last : g.chunks.dropLast.flatten.length < g.request.length
  fits : g.chunks.flatten.length < readBufferSize

/-- The response to the request when it arrives alone and in one chunk, on a connection that
has just been opened. -/
def AnsweredAlone (g : Arrival) (reply : List UInt8) : Prop :=
  ∃ c c' : HttpConn, c.mSockfd ≠ -1 ∧ c.init.turn (g.delivery g.request) = .ok (some reply, c')

section Reading

variable {request s : List UInt8} {h : HeadState}

/-- A request has bytes. -/
theorem KeepAliveRequest.ne_nil (hreq : KeepAliveRequest request h) : request ≠ [] := by
  rintro rfl
  cases hreq.whole

/-- A part of the request is not a whole one. -/
theorem KeepAliveRequest.incomplete (hreq : KeepAliveRequest request h) (hs : s <+: request)
    (hlen : s.length < request.length) : ∃ st, readHead s = .ok st := by
  obtain ⟨st, hst⟩ := hreq.notBefore
  have hs' : s <+: request.dropLast := by
    refine List.prefix_of_prefix_length_le hs (List.dropLast_prefix request) ?_
    rw [List.length_dropLast]
    omega
  obtain ⟨t, ht⟩ := hs'
  cases hread : readHead s with
  | ok st' => exact ⟨st', rfl⟩
  | error v =>
    have herror := feed_append_error headReader t hread
    rw [ht, show feed headReader _ request.dropLast = .ok st from hst] at herror
    cases herror

/-- Bytes behind the request do not matter. -/
theorem KeepAliveRequest.complete (hreq : KeepAliveRequest request h) (hs : request <+: s) :
    readHead s = .error (.request h) := by
  obtain ⟨t, rfl⟩ := hs
  exact feed_append_error headReader t hreq.whole

end Reading

section Serving

variable {g : Arrival} {h : HeadState} {reply : List UInt8}

/-- A new object has nothing written. -/
theorem written_init (c : HttpConn) : Written c.init [] :=
  ⟨rfl, rfl, List.length_replicate⟩

/-- A delivery that completes a request whose response is sent when it arrives alone. -/
theorem turn_complete {c : HttpConn} {s data : List UInt8} {h₀ : HeadState} {free : Nat}
    (hreq : KeepAliveRequest g.request h) (halone : AnsweredAlone g reply) (ht : Tracks c s h₀ free)
    (hsize : s.length + free = readBufferSize) (hw : Written c []) (hne : data ≠ [])
    (hdata : data.length < free) (hwhole : g.request <+: s ++ data) (hfits : g.request.length < readBufferSize) :
    ∃ c' : HttpConn, c.turn (g.delivery data) = .ok (some reply, c'.init) := by
  obtain ⟨url, hurl⟩ := readHead_request_url hreq.whole
  obtain ⟨b, b', hopen, halone⟩ := halone
  have hopen' : b.init.mSockfd ≠ -1 := hopen
  have hroom : c.mReadIdx + data.length < readBufferSize := by
    rw [ht.readIdx]
    omega
  have hroom' : b.init.mReadIdx + g.request.length < readBufferSize := by
    rw [show b.init.mReadIdx = 0 from rfl]
    omega
  obtain ⟨c₁, r, hreceive, hread, hasked⟩ :=
    processRead_asked g.files ht hdata.le hw (hreq.complete hwhole) hreq.linger hurl
  obtain ⟨b₁, q, hreceive', hread', hasked'⟩ :=
    processRead_asked g.files (tracks_init b) hfits.le (written_init b) hreq.whole hreq.linger hurl
  by_cases hempty : AsksEmpty g.files url
  · obtain ⟨b'', hturn⟩ := turn_empty (d := g.delivery g.request) hopen' hreq.ne_nil hroom' hreceive'
      hread' hasked' hempty
    rw [hturn] at halone
    cases halone
  · obtain ⟨c₂, hloaded, hturn⟩ := turn_loaded (d := g.delivery data) hne hroom hreceive hread hasked hempty
    obtain ⟨b₂, hloaded', hturn'⟩ := turn_loaded (d := g.delivery g.request) hreq.ne_nil hroom' hreceive'
      hread' hasked' hempty
    rw [hturn'] at halone
    cases hsend : b₂.send (g.delivery g.request).mapped (g.delivery g.request).writes with
    | none =>
      rw [hsend] at halone
      cases halone
    | some p =>
      obtain ⟨sent, b₃⟩ := p
      rw [hsend] at halone
      obtain rfl : sent = reply := Option.some.inj (Prod.mk.inj (Except.ok.inj halone)).1
      obtain ⟨c', hsend'⟩ := send_same (servedText_pos g.files url) hloaded' hloaded _ hsend
      refine ⟨c', ?_⟩
      rw [hturn, show c₂.send (g.delivery data).mapped (g.delivery data).writes = _ from hsend']

/-- The first delivery comes first. -/
theorem serve_cons {c : HttpConn} (d : Delivery) (ds : List Delivery) :
    c.serve (d :: ds) = c.turn d >>= fun r => r.2.serve ds >>= fun rs =>
      pure (r.1.toList ++ rs.1, rs.2) := rfl

/-- Deliveries in two parts. -/
theorem serve_append {c' : HttpConn} {ds ds' : List Delivery} : ∀ {c : HttpConn}
    {replies : List (List UInt8)}, c.serve ds = .ok (replies, c') →
      c.serve (ds ++ ds') = c'.serve ds' >>= fun rs => pure (replies ++ rs.1, rs.2) := by
  induction ds with
  | nil =>
    intro c replies h
    obtain ⟨rfl, rfl⟩ := Prod.mk.inj (Except.ok.inj h)
    rw [List.nil_append]
    cases c.serve ds' <;> rfl
  | cons d ds ih =>
    intro c replies h
    rw [serve_cons] at h
    obtain ⟨r, hturn, h⟩ := bind_eq_ok.mp h
    obtain ⟨rs, hserve, h⟩ := bind_eq_ok.mp h
    obtain ⟨rfl, rfl⟩ := Prod.mk.inj (Except.ok.inj h)
    rw [List.cons_append, serve_cons, hturn, ok_bind, ih hserve]
    cases rs.2.serve ds' with
    | error e => rfl
    | ok q =>
      rw [ok_bind, ok_bind, List.append_assoc]
      rfl

/-- The chunks that are still to come of a request, after `s`. The induction is on the
chunks. -/
theorem serve_chunks (hreq : KeepAliveRequest g.request h) (halone : AnsweredAlone g reply)
    (chunks : List (List UInt8)) : ∀ (c : HttpConn) (s : List UInt8) (h₀ : HeadState) (free : Nat),
    Tracks c s h₀ free → s.length + free = readBufferSize → Written c [] →
    (∀ data ∈ chunks, data ≠ []) → g.request <+: s ++ chunks.flatten →
    s.length + chunks.dropLast.flatten.length < g.request.length →
    s.length + chunks.flatten.length < readBufferSize →
    ∃ c' : HttpConn, c.serve (chunks.map g.delivery) = .ok ([reply], c'.init) := by
  induction chunks with
  | nil =>
    intro c s h₀ free _ _ _ _ hwhole hlast _
    have hle := hwhole.length_le
    simp only [List.flatten_nil, List.append_nil, List.dropLast_nil, List.length_nil] at hle hlast
    omega
  | cons data rest ih =>
    intro c s h₀ free ht hsize hw hne hwhole hlast hfits
    have hdata : data ≠ [] := hne data List.mem_cons_self
    rw [List.flatten_cons, List.length_append] at hfits
    rw [List.flatten_cons, ← List.append_assoc] at hwhole
    rw [List.map_cons, serve_cons]
    cases hrest : rest with
    | nil =>
      rw [hrest, List.flatten_nil, List.append_nil] at hwhole
      have hle := hwhole.length_le
      rw [List.length_append] at hle
      obtain ⟨c', hturn⟩ := turn_complete hreq halone ht hsize hw hdata (by omega) hwhole (by omega)
      exact ⟨c', by rw [hturn, ok_bind]; rfl⟩
    | cons data' rest' =>
      rw [← hrest]
      have hshort : (s ++ data).length < g.request.length := by
        rw [hrest, List.dropLast_cons_cons, List.flatten_cons, List.length_append] at hlast
        rw [List.length_append]
        omega
      have hpart : s ++ data <+: g.request :=
        List.prefix_of_prefix_length_le (List.prefix_append _ _) hwhole hshort.le
      obtain ⟨st, hread⟩ := hreq.incomplete hpart hshort
      obtain ⟨c', hturn, ht', hside⟩ :=
        turn_incomplete (d := g.delivery data) ht hsize hdata (show data.length < free by omega) hread
      have hw' : Written c' [] := cleared_iff.mp (hside ▸ cleared_iff.mpr hw)
      have hlast' : (s ++ data).length + rest.dropLast.flatten.length < g.request.length := by
        rw [hrest, List.dropLast_cons_cons, List.flatten_cons, List.length_append] at hlast
        rw [hrest, List.length_append]
        omega
      obtain ⟨c'', hserve⟩ := ih c' (s ++ data) st.ctl (free - data.length) ht'
        (by rw [List.length_append]; omega) hw' (fun d hd => hne d (List.mem_cons_of_mem _ hd)) hwhole
        hlast' (by rw [List.length_append]; omega)
      refine ⟨c'', ?_⟩
      rw [hturn, ok_bind]
      simp only [hserve, ok_bind]
      rfl

end Serving

/-- Requests that arrive one after the other, each in any chunks after the response to the one
before was sent, are answered one by one as if each had arrived alone. Afterwards the object
has been reset. -/
theorem answered_apart (c : HttpConn) (gs : List Arrival) (reply : Arrival → List UInt8)
    (h : ∀ g ∈ gs, g.Apart ∧ (∃ head, KeepAliveRequest g.request head) ∧ AnsweredAlone g (reply g)) :
    ∃ c' : HttpConn, c.init.serve (gs.flatMap Arrival.deliveries) = .ok (gs.map reply, c'.init) := by
  induction gs generalizing c with
  | nil => exact ⟨c, rfl⟩
  | cons g gs ih =>
    obtain ⟨hapart, ⟨head, hreq⟩, halone⟩ := h g List.mem_cons_self
    have hlast : ([] : List UInt8).length + g.chunks.dropLast.flatten.length < g.request.length := by
      rw [List.length_nil, Nat.zero_add]
      exact hapart.last
    have hfits : ([] : List UInt8).length + g.chunks.flatten.length < readBufferSize := by
      rw [List.length_nil, Nat.zero_add]
      exact hapart.fits
    obtain ⟨c₁, hserve⟩ := serve_chunks hreq halone g.chunks c.init [] HeadState.init readBufferSize
      (tracks_init c) (by rw [List.length_nil, Nat.zero_add]) (written_init c) hapart.nonempty
      hapart.whole hlast hfits
    obtain ⟨c₂, hrest⟩ := ih c₁ fun g' hg' => h g' (List.mem_cons_of_mem _ hg')
    refine ⟨c₂, ?_⟩
    rw [List.flatMap_cons, show g.deliveries = g.chunks.map g.delivery from rfl, serve_append hserve,
      hrest]
    rfl

/-! ## Two requests -/

/-- A request for a file that does not exist. -/
def keepRequest : List UInt8 := bytes "GET\t/a\tHTTP/1.1\r\nConnection:\tkeep-alive\r\n\r\n"

/-- The response to it. -/
def keepReply : List UInt8 := pageText true 404 error404Title error404Form

/-- The request in the chunks, if the socket takes the response at once. -/
def keepArrival (chunks : List (List UInt8)) : Arrival :=
  ⟨keepRequest, chunks, noFiles, fun _ => [], [[.accepted 200]]⟩

/-- The request of the example keeps its connection. -/
theorem keepRequest_keepAlive : ∃ head, KeepAliveRequest keepRequest head := by
  have hwhole : readHead keepRequest = .error (.request ⟨true, some (bytes "/a"), none, true, 0⟩) := by
    rfl
  have hbefore : ∃ st, readHead keepRequest.dropLast = .ok st := ⟨_, rfl⟩
  exact ⟨_, hwhole, hbefore, rfl⟩

/-- The first component of a result that was computed. -/
theorem exists_of_map {α β : Type} {x : Checked (α × β)} {a : α} (h : x.map Prod.fst = .ok a) :
    ∃ b, x = .ok (a, b) := by
  cases x with
  | error e => cases h
  | ok r => exact ⟨r.2, congrArg Except.ok (Prod.ext (Except.ok.inj h) rfl)⟩

/-- The request of the example is answered alone, in whatever parts it comes. -/
theorem keepArrival_alone (chunks : List (List UInt8)) : AnsweredAlone (keepArrival chunks) keepReply := by
  have hturn : ((default : HttpConn).init.turn
      ⟨keepRequest, noFiles, fun _ => [], [[.accepted 200]]⟩).map Prod.fst = .ok (some keepReply) := by
    decide +kernel
  obtain ⟨c', hc'⟩ := exists_of_map hturn
  exact ⟨default, c', by decide, hc'⟩

/-- Two requests in two pieces each, with other bytes behind the first one. -/
def keepArrivals : List Arrival :=
  [keepArrival [keepRequest.take 5, keepRequest.drop 5 ++ bytes "xxxxxxxxxxxx"],
    keepArrival [keepRequest.take 40, keepRequest.drop 40]]

/-- Two requests get two answers. -/
theorem answered_apart_twice :
    ∃ c' : HttpConn, (default : HttpConn).init.serve (keepArrivals.flatMap Arrival.deliveries) =
      .ok ([keepReply, keepReply], c'.init) := by
  have hapart : ∀ g ∈ keepArrivals, g.Apart := by
    have hfirst : (keepArrival [keepRequest.take 5, keepRequest.drop 5 ++ bytes "xxxxxxxxxxxx"]).Apart :=
      ⟨by decide +kernel, by decide +kernel, by decide +kernel, by decide +kernel⟩
    have hsecond : (keepArrival [keepRequest.take 40, keepRequest.drop 40]).Apart :=
      ⟨by decide +kernel, by decide +kernel, by decide +kernel, by decide +kernel⟩
    exact List.forall_mem_cons.mpr ⟨hfirst, List.forall_mem_cons.mpr ⟨hsecond, nofun⟩⟩
  have hrequest : ∀ g ∈ keepArrivals, g = keepArrival g.chunks :=
    List.forall_mem_cons.mpr ⟨rfl, List.forall_mem_cons.mpr ⟨rfl, nofun⟩⟩
  refine answered_apart default keepArrivals (fun _ => keepReply) fun g hg => ⟨hapart g hg, ?_, ?_⟩
  · rw [hrequest g hg]
    exact keepRequest_keepAlive
  · rw [hrequest g hg]
    exact keepArrival_alone g.chunks

/-- Two requests in one piece: each of them is answered when it arrives alone, but the second
one is dropped with the rest of the read buffer. -/
theorem second_request_dropped :
    (∃ head, KeepAliveRequest keepRequest head) ∧
      AnsweredAlone (keepArrival [keepRequest]) keepReply ∧
      ∃ c' : HttpConn, (default : HttpConn).init.serve
        ((keepArrival [keepRequest ++ keepRequest]).deliveries) = .ok ([keepReply], c'.init) := by
  obtain ⟨head, hreq⟩ := keepRequest_keepAlive
  have halone := keepArrival_alone [keepRequest ++ keepRequest]
  have hne : ∀ data ∈ [keepRequest ++ keepRequest], data ≠ [] := by decide +kernel
  have hwhole : keepRequest <+: [] ++ [keepRequest ++ keepRequest].flatten := by decide +kernel
  have hfits : 0 + [keepRequest ++ keepRequest].flatten.length < readBufferSize := by decide +kernel
  exact ⟨⟨head, hreq⟩, keepArrival_alone _, serve_chunks hreq halone [keepRequest ++ keepRequest] _ [] _ _
    (tracks_init default) (Nat.zero_add _) (written_init _) hne hwhole (by decide +kernel) hfits⟩

end ServerListings.Analysis.KeepAlive
