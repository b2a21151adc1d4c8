import GuacamoleDiode.Bridge.GuacamoleServer

/-!
# The connections of the browsers

Descriptors are used again, and so are the keys of the map of SSL objects. Nevertheless each
call of the server reaches the connection that it is made for, an SSL object is used by the one
thread that has its connection, and it is freed once, before its descriptor is closed.

## Main definitions

- `GuacamoleServer.Turn`: everything that a step can do
- `GuacamoleServer.Wf`: the kernel and the map have the connections that they should have
- `GuacamoleServer.Permitted`: a call reaches its own connection, and nothing that has been freed

## Main results

- `own_calls`: in every run all calls are permitted
- `freed_once`: an SSL object is freed once, and it is when its connection is closed
-/

namespace GuacamoleDiode

open Wire

namespace GuacamoleServer

/-- The map has the object of the connection. -/
def Stage.listed : Stage → Bool
  | .idle | .calling _ _ _ => true
  | _ => false

/-- The object of the connection has been made, and not been freed. -/
def Stage.holds : Stage → Bool
  | .wrapped | .idle | .calling _ _ _ | .erased _ => true
  | _ => false

/-- What the thread has found in the map. -/
def Stage.found : Stage → Option (Option ℕ)
  | .calling _ ssl _ | .erased ssl => some ssl
  | _ => none

/-- A stage of `Accept` with TLS. -/
def Stage.accepting : Stage → Bool
  | .accepted | .wrapped => true
  | _ => false

/-- The object that a connection is used with. -/
def sslOf (tls : Bool) (k : ℕ) : Option ℕ := if tls then some k else none

/-- What becomes of a call that has been answered. -/
inductive Answered (tls : Bool) (k : ℕ) (op : Op) (ssl target : Option ℕ) (total : ℕ) :
    Stage → List Effect → Prop where
  | returns (result : ℤ) (fails : ∀ data, op = .send data → result = -1) :
      Answered tls k op ssl target total .idle [.called k ssl target, .returned k op result]
  /-- a part of the bytes is taken -/
  | takes (data : Bytes) (n : ℕ) (sends : op = .send data) (part : total + n < data.length) :
      Answered tls k op ssl target total (.calling op ssl (total + n))
        [.called k ssl target, .wrote k target ((data.drop total).take n)]
  /-- the rest of the bytes is taken -/
  | ends (data : Bytes) (n : ℕ) (sends : op = .send data) (whole : total + n = data.length) :
      Answered tls k op ssl target total .idle
        [.called k ssl target, .wrote k target ((data.drop total).take n), .returned k op (total + n)]
  | again : Answered tls k op ssl target total (.calling op ssl total) [.called k ssl target]

-- ════════════════════════════════════════════════════════════════════════
-- One step
-- ════════════════════════════════════════════════════════════════════════

/-- Everything that a step can do. -/
inductive Turn (tls : Bool) (s : GuacamoleServer) : GuacamoleServer → List Effect → Prop where
  | stay : Turn tls s s []
  /-- a call returns at once -/
  | returns (k : ℕ) (op : Op) (result : ℤ) (sends : ∀ data, op = .send data → data = [] ∧ result = 0) :
      Turn tls s s [.returned k op result]
  | misses {k : ℕ} {conn : Conn} (op : Op) (result : ℤ) (found : s.conns k = some conn)
      (stage : conn.stage = .idle) (mode : tls = true) (missing : s.sslFor conn.fd = none) :
      Turn tls s s [.missing k, .returned k op result]
  | accepts (fd : ℕ) (hand : s.hand = none) (free : s.sockets fd = none) :
      Turn tls s (s.accept tls fd).1 []
  | wraps {k : ℕ} {conn : Conn} (found : s.conns k = some conn) (stage : conn.stage = .accepted) :
      Turn tls s (s.wrap k conn true).1 [.made k]
  | enlists {k : ℕ} {conn : Conn} (found : s.conns k = some conn) (stage : conn.stage = .wrapped) :
      Turn tls s (s.enlist k conn).1 [.enlisted k conn.fd]
  | hands {k : ℕ} {conn : Conn} (found : s.conns k = some conn) (stage : conn.stage = .idle) :
      Turn tls s (s.allocate tls k conn true).1 []
  | begins {k : ℕ} {conn : Conn} (op : Op) (ssl : Option ℕ) (found : s.conns k = some conn)
      (stage : conn.stage = .idle) (sends : op ≠ .send [])
      (lookup : if tls then s.sslFor conn.fd = ssl ∧ ssl ≠ none else ssl = none) :
      Turn tls s (s.goOn k conn (.calling op ssl 0)) []
  | replies {k : ℕ} {conn : Conn} {op : Op} {ssl : Option ℕ} {total : ℕ} {stage' : Stage}
      {out : List Effect} (found : s.conns k = some conn) (stage : conn.stage = .calling op ssl total)
      (answered : Answered tls k op ssl (s.target conn.fd ssl) total stage' out) :
      Turn tls s (s.goOn k conn stage') out
  | erases {k : ℕ} {conn : Conn} (found : s.conns k = some conn) (stage : conn.stage = .idle) :
      Turn tls s (s.close tls k conn).1 []
  | frees {k : ℕ} {conn : Conn} {ssl : Option ℕ} (found : s.conns k = some conn)
      (stage : conn.stage = .erased ssl) : Turn tls s (s.free k conn ssl).1 (s.free k conn ssl).2
  | shuts {k : ℕ} {conn : Conn} (found : s.conns k = some conn)
      (stage : conn.stage = .accepted ∨ conn.stage = .freed) :
      Turn tls s (s.shut k conn).1 (s.shut k conn).2

section

variable {tls : Bool} {s s' : GuacamoleServer} {k : ℕ} {conn : Conn} {out : List Effect}

theorem conns_of_inHand (h : s.inHand = some (k, conn)) : s.conns k = some conn := by
  obtain ⟨k', -, hk'⟩ := Option.bind_eq_some_iff.mp h
  obtain ⟨conn', hconn, heq⟩ := Option.map_eq_some_iff.mp hk'
  cases heq
  exact hconn

theorem goOn_self (h : s.conns k = some conn) : s.goOn k conn conn.stage = s := by
  show ({ s with conns := Function.update s.conns k (some conn) } : GuacamoleServer) = s
  rw [← h, Function.update_eq_self]

theorem turn_call (op : Op) (hk : s.conns k = some conn) (hstage : conn.stage = .idle) :
    Turn tls s (s.call tls k conn op).1 (s.call tls k conn op).2 := by
  unfold call
  by_cases hempty : op = .send []
  · rw [if_pos hempty]
    refine .returns k op 0 fun data hdata => ?_
    cases hempty.symm.trans hdata
    exact ⟨rfl, rfl⟩
  rw [if_neg hempty]
  by_cases htls : tls = true
  · rw [if_pos htls]
    split
    · next hmissing => exact .misses op _ hk hstage htls hmissing
    · next ssl hfound =>
      refine .begins op (some ssl) hk hstage hempty ?_
      rw [if_pos htls]
      exact ⟨hfound, Option.some_ne_none ssl⟩
  · rw [if_neg htls]
    split_ifs with hpending
    · refine .returns k op 0 fun data hdata => ?_
      cases hpending.symm.trans hdata
    · refine .begins op none hk hstage hempty ?_
      rw [if_neg htls]

theorem turn_answer {op : Op} {ssl : Option ℕ} {total : ℕ} (a : Answer) (hk : s.conns k = some conn)
    (hstage : conn.stage = .calling op ssl total) :
    Turn tls s (s.answer tls k conn op ssl total a).1 (s.answer tls k conn op ssl total a).2 := by
  unfold answer
  by_cases hpossible : a.possible op total = true
  · rw [if_pos hpossible]
    cases op with
    | hasPending => exact .replies hk hstage (.returns _ fun _ h => by cases h)
    | receive => exact .replies hk hstage (.returns _ fun _ h => by cases h)
    | send data =>
      cases a with
      | done n =>
        simp only [sent]
        split_ifs with hpart
        · exact .replies hk hstage (.takes data n rfl hpart)
        · have hle : total + n ≤ data.length := by simpa [Answer.possible] using hpossible
          exact .replies hk hstage (.ends data n rfl (by omega))
      | interrupted =>
        simp only [sent]
        split_ifs
        · exact .replies hk hstage (.returns _ fun _ _ => rfl)
        · have hstays : Turn tls s (s.goOn k conn conn.stage) [.called k ssl (s.target conn.fd ssl)] := by
            rw [hstage]
            exact .replies hk hstage .again
          rwa [goOn_self hk] at hstays
      | _ => exact .replies hk hstage (.returns _ fun _ _ => rfl)
  · rw [if_neg hpossible]
    exact .stay

/-- Everything that a step can do. -/
theorem turn (tls : Bool) (s : GuacamoleServer) (e : Event) : Turn tls s (s.step tls e).1 (s.step tls e).2 := by
  cases e with
  | accept fd =>
    show Turn tls s (s.accept tls fd).1 (s.accept tls fd).2
    by_cases h : s.hand = none ∧ s.sockets fd = none
    · have hout : (s.accept tls fd).2 = [] := by rw [accept, if_pos h]
      rw [hout]
      exact .accepts fd h.1 h.2
    · rw [accept, if_neg h]
      exact .stay
  | wrap made =>
    simp only [step]
    split
    · next k conn hhand =>
      split_ifs with hstage
      · cases made with
        | false => exact .shuts (conns_of_inHand hhand) (.inl hstage)
        | true => exact .wraps (conns_of_inHand hhand) hstage
      · exact .stay
    · exact .stay
  | enlist =>
    simp only [step]
    split
    · next k conn hhand =>
      split_ifs with hstage
      · exact .enlists (conns_of_inHand hhand) hstage
      · exact .stay
    · exact .stay
  | allocate room =>
    simp only [step]
    split
    · next k conn hhand =>
      split_ifs with hstage
      · cases room with
        | false =>
          have hout : (s.close tls k conn).2 = [] := by cases tls <;> rfl
          show Turn tls s (s.close tls k conn).1 (s.close tls k conn).2
          rw [hout]
          exact .erases (conns_of_inHand hhand) hstage
        | true => exact .hands (conns_of_inHand hhand) hstage
      · exact .stay
    · exact .stay
  | call k op =>
    simp only [step]
    split
    · next conn hk =>
      split_ifs with h
      · exact turn_call op hk h.1
      · exact .stay
    · exact .stay
  | answer k a =>
    simp only [step]
    split
    · next conn hk =>
      split
      · next op ssl total hstage => exact turn_answer a hk hstage
      · exact .stay
    · exact .stay
  | close k =>
    simp only [step]
    split
    · next conn hk =>
      split_ifs with h
      · have hout : (s.close tls k conn).2 = [] := by cases tls <;> rfl
        rw [hout]
        exact .erases hk h.1
      · exact .stay
    · exact .stay
  | free k =>
    simp only [step]
    split
    · next conn hk =>
      split
      · next ssl hstage => exact .frees hk hstage
      · exact .stay
    · exact .stay
  | release k =>
    simp only [step]
    split
    · next conn hk =>
      split_ifs with hstage
      · exact .shuts hk (.inr hstage)
      · exact .stay
    · exact .stay

end

-- ════════════════════════════════════════════════════════════════════════
-- The kernel, the map and the objects
-- ════════════════════════════════════════════════════════════════════════

/-- The kernel has the connections that have not been closed, and the map those that a thread may
look up. -/
structure Wf (tls : Bool) (s : GuacamoleServer) : Prop where
  sockets : Directory.Lists s.sockets s.conns Conn.fd fun _ conn => conn.stage ≠ .closed
  listed : Directory.Lists s.sslByFd s.conns Conn.fd fun _ conn => tls = true ∧ conn.stage.listed = true
  objects : ∀ k conn, s.conns k = some conn →
    s.objects k = if tls = true ∧ conn.stage.holds = true then some conn.fd else none
  found : ∀ k conn, s.conns k = some conn → ∀ ssl, conn.stage.found = some ssl → ssl = sslOf tls k
  mode : ∀ k conn, s.conns k = some conn → conn.stage.accepting = true → tls = true
  unused : ∀ k, s.accepted ≤ k → s.conns k = none ∧ s.objects k = none

section

variable {tls : Bool} {s s' : GuacamoleServer} {k fd : ℕ} {conn conn' : Conn} {out : List Effect}
  {ssl : Option ℕ}

theorem stage_ne_closed_of_listed {stage : Stage} (h : stage.listed = true) : stage ≠ .closed := by
  rintro rfl
  cases h

/-- In front of `::close` the connection is there, and its object is not. -/
theorem unwrapped {stage : Stage} (h : stage = .accepted ∨ stage = .freed) :
    stage ≠ .closed ∧ stage.listed = false ∧ stage.holds = false := by
  obtain rfl | rfl := h
  · exact ⟨Stage.noConfusion, rfl, rfl⟩
  · exact ⟨Stage.noConfusion, rfl, rfl⟩

/-- Two connections that are open do not have the same descriptor. -/
theorem Wf.unique (h : Wf tls s) {j : ℕ} {x : Conn} (hj : s.conns j = some x) (hk : s.conns k = some conn)
    (hfd : x.fd = conn.fd) (hx : x.stage ≠ .closed) (hopen : conn.stage ≠ .closed) : j = k :=
  h.sockets.unique hj hk hfd hx hopen

/-- The map has the object of the connection itself. -/
theorem Wf.sslFor (h : Wf true s) (hk : s.conns k = some conn) (hlisted : conn.stage.listed = true) :
    s.sslFor conn.fd = some k :=
  (h.listed conn.fd k).mpr ⟨conn, hk, rfl, rfl, hlisted⟩

/-- The object of a connection has not been freed. -/
theorem Wf.live (h : Wf tls s) (hk : s.conns k = some conn) (hholds : conn.stage.holds = true) :
    tls = true → s.objects k ≠ none := by
  intro htls
  rw [h.objects k conn hk, if_pos ⟨htls, hholds⟩]
  exact Option.some_ne_none conn.fd

/-- A call reaches the connection that it is made for. -/
theorem Wf.target (h : Wf tls s) (hk : s.conns k = some conn) (hopen : conn.stage ≠ .closed)
    (hholds : conn.stage.holds = true) : s.target conn.fd (sslOf tls k) = some k := by
  have hsocket : s.sockets conn.fd = some k := (h.sockets conn.fd k).mpr ⟨conn, hk, rfl, hopen⟩
  cases tls with
  | false => exact hsocket
  | true =>
    have hobject := h.objects k conn hk
    rw [if_pos ⟨rfl, hholds⟩] at hobject
    show (s.objects k).bind s.sockets = some k
    rw [hobject]
    exact hsocket

/-- The thread of a connection goes on. -/
theorem Wf.change (h : Wf tls s) (hk : s.conns k = some conn)
    (hconns : s'.conns = Function.update s.conns k (some conn')) (haccepted : s'.accepted = s.accepted)
    (hsockets : Directory.Lists s'.sockets s'.conns Conn.fd fun _ conn => conn.stage ≠ .closed)
    (hlisted : Directory.Lists s'.sslByFd s'.conns Conn.fd fun _ conn =>
      tls = true ∧ conn.stage.listed = true)
    (hobjects : ∀ j, j ≠ k → s'.objects j = s.objects j)
    (hobject : s'.objects k = if tls = true ∧ conn'.stage.holds = true then some conn'.fd else none)
    (hfound : ∀ ssl, conn'.stage.found = some ssl → ssl = sslOf tls k)
    (hmode : conn'.stage.accepting = true → tls = true) : Wf tls s' := by
  have hbelow : k < s.accepted := by
    by_contra hge
    rw [(h.unused k (not_lt.mp hge)).1] at hk
    cases hk
  refine ⟨hsockets, hlisted, fun j x hj => ?_, fun j x hj => ?_, fun j x hj => ?_, fun j hj => ?_⟩
  · rw [hconns] at hj
    obtain ⟨rfl, rfl⟩ | ⟨hne, hj⟩ := Table.of_update hj
    · exact hobject
    · rw [hobjects j hne]
      exact h.objects j x hj
  · rw [hconns] at hj
    obtain ⟨rfl, rfl⟩ | ⟨-, hj⟩ := Table.of_update hj
    · exact hfound
    · exact h.found j x hj
  · rw [hconns] at hj
    obtain ⟨rfl, rfl⟩ | ⟨-, hj⟩ := Table.of_update hj
    · exact hmode
    · exact h.mode j x hj
  · rw [haccepted] at hj
    have hne : j ≠ k := by omega
    rw [hconns, Function.update_of_ne hne, hobjects j hne]
    exact h.unused j hj

/-- A step that leaves the kernel, the map and the objects alone. -/
theorem Wf.goOn (h : Wf tls s) (hk : s.conns k = some conn) {stage : Stage}
    (hopen : stage ≠ .closed ↔ conn.stage ≠ .closed) (hlisted : stage.listed = conn.stage.listed)
    (hholds : stage.holds = conn.stage.holds)
    (hfound : ∀ ssl, stage.found = some ssl → ssl = sslOf tls k)
    (hmode : stage.accepting = true → tls = true) : Wf tls (s.goOn k conn stage) := by
  refine h.change hk rfl rfl ?_ ?_ (fun _ _ => rfl) ?_ hfound hmode
  · exact h.sockets.keep (fun _ _ _ _ => Iff.rfl) hk rfl hopen
  · exact h.listed.keep (fun _ _ _ _ => Iff.rfl) hk rfl (by rw [hlisted])
  · show s.objects k = _
    rw [h.objects k conn hk, hholds]

theorem wf_init (tls : Bool) : Wf tls {} := by
  refine ⟨?_, ?_, ?_, ?_, ?_, ?_⟩ <;> simp [Directory.Lists]

theorem Wf.accept (h : Wf tls s) (hhand : s.hand = none) (hfree : s.sockets fd = none) :
    Wf tls (s.accept tls fd).1 := by
  obtain ⟨hnone, hobject⟩ := h.unused s.accepted le_rfl
  rw [GuacamoleServer.accept, if_pos ⟨hhand, hfree⟩]
  refine ⟨?_, ?_, fun j x hj => ?_, fun j x hj => ?_, fun j x hj => ?_, fun j hj => ?_⟩
  · refine h.sockets.add (i := s.accepted) (b := { fd := fd, stage := if tls then .accepted else .idle })
      (fun _ _ _ _ => Iff.rfl) (fun a ha => ?_) ?_ ?_
    · rw [hnone] at ha
      cases ha
    · cases tls <;> exact nofun
    · intro j x hx hkey hopen
      have hsocket := (h.sockets fd j).mpr ⟨x, hx, hkey, hopen⟩
      rw [hfree] at hsocket
      cases hsocket
  · refine h.listed.skip (fun _ _ _ _ => Iff.rfl) hnone ?_
    cases tls <;> simp [Stage.listed]
  · obtain ⟨rfl, rfl⟩ | ⟨-, hj⟩ := Table.of_update hj
    · cases tls <;> simp [Stage.holds, hobject]
    · exact h.objects j x hj
  · obtain ⟨rfl, rfl⟩ | ⟨-, hj⟩ := Table.of_update hj
    · cases tls <;> exact nofun
    · exact h.found j x hj
  · obtain ⟨rfl, rfl⟩ | ⟨-, hj⟩ := Table.of_update hj
    · cases tls <;> simp [Stage.accepting]
    · exact h.mode j x hj
  · have hle : s.accepted + 1 ≤ j := hj
    have hne : j ≠ s.accepted := by omega
    obtain ⟨hconn, hobj⟩ := h.unused j (by omega)
    exact ⟨(Function.update_of_ne hne _ _).trans hconn, hobj⟩

theorem Wf.wrap (h : Wf tls s) (hk : s.conns k = some conn) (hstage : conn.stage = .accepted) :
    Wf tls (s.wrap k conn true).1 := by
  have htls : tls = true := h.mode k conn hk (by rw [hstage]; rfl)
  refine h.change hk rfl rfl ?_ ?_ (fun j hj => Function.update_of_ne hj _ _) ?_ nofun fun _ => htls
  · exact h.sockets.keep (fun _ _ _ _ => Iff.rfl) hk rfl (by simp [hstage])
  · exact h.listed.keep (fun _ _ _ _ => Iff.rfl) hk rfl (by simp [hstage, Stage.listed])
  · rw [if_pos ⟨htls, rfl⟩]
    exact Function.update_self ..

theorem Wf.enlist (h : Wf tls s) (hk : s.conns k = some conn) (hstage : conn.stage = .wrapped) :
    Wf tls (s.enlist k conn).1 := by
  have htls : tls = true := h.mode k conn hk (by rw [hstage]; rfl)
  refine h.change hk rfl rfl ?_ ?_ (fun _ _ => rfl) ?_ nofun nofun
  · exact h.sockets.keep (fun _ _ _ _ => Iff.rfl) hk rfl (by simp [hstage])
  · refine h.listed.add (i := k) (b := { conn with stage := .idle }) (fun _ _ _ _ => Iff.rfl)
      (fun a ha => ?_) ⟨htls, rfl⟩ ?_
    · cases hk.symm.trans ha
      rfl
    · intro j x hx hkey hlisted
      exact h.unique hx hk hkey (stage_ne_closed_of_listed hlisted.2) (by simp [hstage])
  · show s.objects k = _
    rw [h.objects k conn hk, hstage]
    rfl

theorem Wf.hand (h : Wf tls s) (hk : s.conns k = some conn) :
    Wf tls (s.allocate tls k conn true).1 := by
  refine h.change hk rfl rfl ?_ ?_ (fun _ _ => rfl) (h.objects k conn hk) (h.found k conn hk)
    (h.mode k conn hk)
  · exact h.sockets.keep (fun _ _ _ _ => Iff.rfl) hk rfl Iff.rfl
  · exact h.listed.keep (fun _ _ _ _ => Iff.rfl) hk rfl Iff.rfl

theorem Wf.close (h : Wf tls s) (hk : s.conns k = some conn) (hstage : conn.stage = .idle) :
    Wf tls (s.close tls k conn).1 := by
  have hlisted : conn.stage.listed = true := by rw [hstage]; rfl
  cases tls with
  | false =>
    refine h.change hk rfl rfl ?_ ?_ (fun _ _ => rfl) ?_ nofun nofun
    · exact h.sockets.keep (fun _ _ _ _ => Iff.rfl) hk rfl (by simp [hstage])
    · exact h.listed.keep (fun _ _ _ _ => Iff.rfl) hk rfl (by simp)
    · exact (h.objects k conn hk).trans (by simp)
  | true =>
    refine h.change hk rfl rfl ?_ ?_ (fun _ _ => rfl) ?_ ?_ nofun
    · exact h.sockets.keep (fun _ _ _ _ => Iff.rfl) hk rfl (by simp [hstage])
    · refine h.listed.remove (a := conn) hk (by simp [Stage.listed]) fun j x hx hkey hp => ?_
      exact h.listed.unique hx hk hkey hp ⟨rfl, hlisted⟩
    · show s.objects k = _
      rw [h.objects k conn hk, hstage]
      rfl
    · rintro ssl hssl
      cases hssl
      exact h.sslFor hk hlisted

theorem Wf.free (h : Wf tls s) (hk : s.conns k = some conn) (hstage : conn.stage = .erased ssl) :
    Wf tls (s.free k conn ssl).1 := by
  have hssl := h.found k conn hk ssl (by rw [hstage]; rfl)
  have hsockets := h.sockets.keep (b := { conn with stage := .freed }) (fun _ _ _ _ => Iff.rfl) hk rfl
    (by simp [hstage])
  have hlisted := h.listed.keep (b := { conn with stage := .freed }) (fun _ _ _ _ => Iff.rfl) hk rfl
    (by simp [hstage, Stage.listed])
  subst hssl
  cases tls with
  | false =>
    refine h.change hk rfl rfl hsockets hlisted (fun _ _ => rfl) ?_ nofun nofun
    exact (h.objects k conn hk).trans (by simp)
  | true =>
    refine h.change hk rfl rfl hsockets hlisted (fun j hj => Function.update_of_ne hj _ _) ?_ nofun nofun
    exact Function.update_self ..

theorem Wf.shut (h : Wf tls s) (hk : s.conns k = some conn)
    (hstage : conn.stage = .accepted ∨ conn.stage = .freed) : Wf tls (s.shut k conn).1 := by
  obtain ⟨hopen, hlisted, hholds⟩ := unwrapped hstage
  refine h.change hk rfl rfl ?_ ?_ (fun _ _ => rfl) ?_ nofun nofun
  · refine h.sockets.remove (a := conn) hk (by simp) fun j x hx hkey hp => ?_
    exact h.unique hx hk hkey hp hopen
  · exact h.listed.keep (fun _ _ _ _ => Iff.rfl) hk rfl (by rw [hlisted]; exact Iff.rfl)
  · show s.objects k = _
    rw [h.objects k conn hk, hholds]
    rfl

theorem Wf.turn (h : Wf tls s) (hturn : Turn tls s s' out) : Wf tls s' := by
  cases hturn with
  | stay => exact h
  | returns => exact h
  | misses => exact h
  | accepts fd hhand hfree => exact h.accept hhand hfree
  | wraps hk hstage => exact h.wrap hk hstage
  | enlists hk hstage => exact h.enlist hk hstage
  | hands hk => exact h.hand hk
  | @begins k conn op ssl hk hstage _ hlookup =>
    refine h.goOn hk (by simp [hstage]) (by rw [hstage]; rfl) (by rw [hstage]; rfl) ?_ nofun
    rintro ssl' hssl'
    cases hssl'
    cases tls with
    | false => exact hlookup
    | true =>
      obtain ⟨hfound, -⟩ := hlookup
      rw [← hfound]
      exact h.sslFor hk (by rw [hstage]; rfl)
  | @replies k conn op ssl total stage' out hk hstage hanswered =>
    have hssl := h.found k conn hk ssl (by rw [hstage]; rfl)
    cases hanswered with
    | returns => exact h.goOn hk (by simp [hstage]) (by rw [hstage]; rfl) (by rw [hstage]; rfl) nofun nofun
    | ends => exact h.goOn hk (by simp [hstage]) (by rw [hstage]; rfl) (by rw [hstage]; rfl) nofun nofun
    | takes =>
      refine h.goOn hk (by simp [hstage]) (by rw [hstage]; rfl) (by rw [hstage]; rfl) ?_ nofun
      rintro ssl' hssl'
      cases hssl'
      exact hssl
    | again =>
      refine h.goOn hk (by simp [hstage]) (by rw [hstage]) (by rw [hstage]) ?_ nofun
      rintro ssl' hssl'
      cases hssl'
      exact hssl
  | erases hk hstage => exact h.close hk hstage
  | frees hk hstage => exact h.free hk hstage
  | shuts hk hstage => exact h.shut hk hstage

theorem wf_run (tls : Bool) (es : List Event) : Wf tls ((machine tls).run es) :=
  Machine.invariant (M := machine tls) (P := fun _ s => Wf tls s) (wf_init tls)
    (fun es e h => h.turn (turn tls ((machine tls).run es) e)) es

end

-- ════════════════════════════════════════════════════════════════════════
-- The calls
-- ════════════════════════════════════════════════════════════════════════

/-- A call reaches the connection that it is made for, with the object that has been made for it
and has not been freed. Nothing is entered over another entry, and nothing is closed that something still refers to. -/
def Permitted (tls : Bool) (s : GuacamoleServer) : Effect → Prop
  | .made k => s.objects k = none
  | .enlisted _ fd => s.sslByFd fd = none
  | .missing _ => False
  | .called k ssl target => ssl = sslOf tls k ∧ target = some k ∧ (tls = true → s.objects k ≠ none)
  | .wrote k target _ => target = some k
  | .returned _ _ _ => True
  | .freed k ssl => ssl = k ∧ s.objects k ≠ none
  | .closed k target => target = some k ∧ s.objects k = none ∧ ∀ fd, s.sslByFd fd ≠ some k

section

variable {tls : Bool} {s s' : GuacamoleServer} {k : ℕ} {conn : Conn} {out : List Effect}

theorem Wf.permitted_enlisted (h : Wf tls s) (hk : s.conns k = some conn) (hstage : conn.stage = .wrapped) :
    s.sslByFd conn.fd = none := by
  rw [Option.eq_none_iff_forall_ne_some]
  intro j hj
  obtain ⟨x, hx, hkey, -, hlisted⟩ := (h.listed conn.fd j).mp hj
  obtain rfl := h.unique hx hk hkey (stage_ne_closed_of_listed hlisted) (by simp [hstage])
  cases hk.symm.trans hx
  rw [hstage] at hlisted
  cases hlisted

theorem Wf.permitted_closed (h : Wf tls s) (hk : s.conns k = some conn)
    (hstage : conn.stage = .accepted ∨ conn.stage = .freed) :
    Permitted tls s (.closed k (s.sockets conn.fd)) := by
  obtain ⟨hopen, hlisted, hholds⟩ := unwrapped hstage
  refine ⟨(h.sockets conn.fd k).mpr ⟨conn, hk, rfl, hopen⟩, ?_, fun fd hfd => ?_⟩
  · rw [h.objects k conn hk, hholds]
    exact if_neg fun hand => by cases hand.2
  · obtain ⟨x, hx, -, -, htrue⟩ := (h.listed fd k).mp hfd
    cases hk.symm.trans hx
    rw [hlisted] at htrue
    cases htrue

/-- What a step does is permitted. -/
theorem Wf.permitted (h : Wf tls s) (hturn : Turn tls s s' out) : ∀ effect ∈ out, Permitted tls s effect := by
  cases hturn with
  | stay => exact nofun
  | returns => simp [Permitted]
  | misses op result hk hstage htls hmissing =>
    subst htls
    rw [h.sslFor hk (by rw [hstage]; rfl)] at hmissing
    cases hmissing
  | accepts => exact nofun
  | @wraps k conn hk hstage =>
    intro effect heffect
    obtain rfl := List.mem_singleton.mp heffect
    show s.objects k = none
    rw [h.objects k conn hk, hstage]
    exact if_neg fun hand => by cases hand.2
  | @enlists k conn hk hstage =>
    intro effect heffect
    obtain rfl := List.mem_singleton.mp heffect
    exact h.permitted_enlisted hk hstage
  | hands => exact nofun
  | begins => exact nofun
  | @replies k conn op ssl total stage' out hk hstage hanswered =>
    have hssl := h.found k conn hk ssl (by rw [hstage]; rfl)
    have htarget : s.target conn.fd ssl = some k := by
      rw [hssl]
      exact h.target hk (by simp [hstage]) (by rw [hstage]; rfl)
    have hlive := h.live hk (by rw [hstage]; rfl)
    rw [htarget] at hanswered
    cases hanswered <;> simpa [Permitted, hssl] using hlive
  | erases => exact nofun
  | @frees k conn ssl hk hstage =>
    have hssl := h.found k conn hk ssl (by rw [hstage]; rfl)
    have htarget := h.target hk (by simp [hstage]) (by rw [hstage]; rfl)
    subst hssl
    cases tls with
    | false => exact nofun
    | true =>
      have hlive := h.live hk (by rw [hstage]; rfl)
      intro effect heffect
      obtain rfl | heffect := List.mem_cons.mp heffect
      · exact ⟨rfl, htarget, hlive⟩
      · obtain rfl := List.mem_singleton.mp heffect
        exact ⟨rfl, hlive rfl⟩
  | shuts hk hstage =>
    intro effect heffect
    obtain rfl := List.mem_singleton.mp heffect
    exact h.permitted_closed hk hstage

/-- In every run, however the threads take turns and whatever number the kernel gives to the next
connection, each call reaches the connection that it is made for, with its own object. `SslFor`
finds this object, `Accept` does not enter it over another one, and nothing is left behind
for the next connection when the descriptor is closed. -/
theorem own_calls (tls : Bool) (es : List Event) (e : Event) :
    ∀ effect ∈ ((machine tls).step ((machine tls).run es) e).2,
      Permitted tls ((machine tls).run es) effect :=
  (wf_run tls es).permitted (turn tls ((machine tls).run es) e)

/-- The second connection has the descriptor of the first one, and writes to it. -/
def reusedRun : List Event :=
  [.accept 5, .wrap true, .enlist, .allocate true, .close 0, .free 0, .release 0, .accept 5, .wrap true,
    .enlist, .allocate true, .call 1 (.send [49])]

theorem own_calls_reusedRun :
    Effect.called 1 (some 1) (some 1) ∈
        ((machine true).step ((machine true).run reusedRun) (.answer 1 (.done 1))).2 ∧
      Permitted true ((machine true).run reusedRun) (.called 1 (some 1) (some 1)) := by
  have hmem : Effect.called 1 (some 1) (some 1) ∈
      ((machine true).step ((machine true).run reusedRun) (.answer 1 (.done 1))).2 := by decide
  exact ⟨hmem, own_calls true reusedRun (.answer 1 (.done 1)) _ hmem⟩

end

-- ════════════════════════════════════════════════════════════════════════
-- The life of an object
-- ════════════════════════════════════════════════════════════════════════

/-- The objects that are made. -/
def madeIn (out : List Effect) : List ℕ :=
  out.filterMap fun
    | .made k => some k
    | _ => none

/-- The objects that are freed. -/
def freedIn (out : List Effect) : List ℕ :=
  out.filterMap fun
    | .freed _ ssl => some ssl
    | _ => none

/-- The objects that there are have been made and not been freed. -/
structure Ledger (s : GuacamoleServer) (made freed : List ℕ) : Prop where
  distinct : made.Nodup
  gone : freed.Nodup
  subset : freed ⊆ made
  live : ∀ k, s.objects k ≠ none ↔ k ∈ made ∧ k ∉ freed
  passed : ∀ k ∈ made, ∃ conn, s.conns k = some conn ∧ conn.stage ≠ .accepted

section

variable {tls : Bool} {s s' : GuacamoleServer} {k : ℕ} {conn conn' : Conn} {made freed : List ℕ}
  {out : List Effect}

theorem Ledger.passed_update (h : Ledger s made freed) (conn' : Conn) (hstage : conn'.stage ≠ .accepted) :
    ∀ j ∈ made, ∃ x, Function.update s.conns k (some conn') j = some x ∧ x.stage ≠ .accepted := by
  intro j hj
  by_cases hjk : j = k
  · subst hjk
    exact ⟨conn', Function.update_self .., hstage⟩
  · rw [Function.update_of_ne hjk]
    exact h.passed j hj

/-- A step that makes no object and frees none. -/
theorem Ledger.same (h : Ledger s made freed) (hobjects : s'.objects = s.objects)
    (hconns : s'.conns = Function.update s.conns k (some conn')) (hstage : conn'.stage ≠ .accepted) :
    Ledger s' made freed := by
  refine ⟨h.distinct, h.gone, h.subset, fun j => ?_, fun j hj => ?_⟩
  · rw [hobjects]
    exact h.live j
  · rw [hconns]
    exact h.passed_update conn' hstage j hj

theorem Ledger.makes (h : Ledger s made freed) (hk : s.conns k = some conn) (hstage : conn.stage = .accepted) :
    Ledger (s.wrap k conn true).1 (made ++ [k]) freed := by
  have hnew : k ∉ made := by
    intro hmem
    obtain ⟨x, hx, hpassed⟩ := h.passed k hmem
    cases hk.symm.trans hx
    exact hpassed hstage
  refine ⟨List.nodup_append.mpr ⟨h.distinct, List.pairwise_singleton _ k, ?_⟩, h.gone,
    fun j hj => List.mem_append_left _ (h.subset hj), fun j => ?_, fun j hj => ?_⟩
  · rintro a ha b hb rfl
    obtain rfl := List.mem_singleton.mp hb
    exact hnew ha
  · show Function.update s.objects k (some conn.fd) j ≠ none ↔ _
    by_cases hjk : j = k
    · subst hjk
      have hkept : j ∉ freed := fun hfreed => hnew (h.subset hfreed)
      simp [hkept]
    · rw [Function.update_of_ne hjk, h.live j]
      simp [hjk]
  · by_cases hjk : j = k
    · subst hjk
      exact ⟨{ conn with stage := .wrapped }, Function.update_self .., nofun⟩
    · have hmem : j ∈ made := by simpa [hjk] using hj
      exact h.passed_update { conn with stage := .wrapped } nofun j hmem

theorem Ledger.frees (h : Ledger s made freed) (hobject : s.objects k ≠ none) :
    Ledger (s.free k conn (some k)).1 made (freed ++ [k]) := by
  obtain ⟨hmade, hnew⟩ := (h.live k).mp hobject
  refine ⟨h.distinct, List.nodup_append.mpr ⟨h.gone, List.pairwise_singleton _ k, ?_⟩, ?_, fun j => ?_, ?_⟩
  · rintro a ha b hb rfl
    obtain rfl := List.mem_singleton.mp hb
    exact hnew ha
  · intro j hj
    refine (List.mem_append.mp hj).elim (fun hj => h.subset hj) fun hj => ?_
    rw [List.mem_singleton.mp hj]
    exact hmade
  · show Function.update s.objects k none j ≠ none ↔ _
    by_cases hjk : j = k
    · subst hjk
      simp
    · rw [Function.update_of_ne hjk, h.live j]
      simp [hjk]
  · exact h.passed_update { conn with stage := .freed } nofun

theorem Ledger.turn (h : Ledger s made freed) (hwf : Wf tls s) (hturn : Turn tls s s' out) :
    Ledger s' (made ++ madeIn out) (freed ++ freedIn out) := by
  have hnone {out : List Effect} (hmade : madeIn out = []) (hfreed : freedIn out = [])
      (h : Ledger s' made freed) : Ledger s' (made ++ madeIn out) (freed ++ freedIn out) := by
    rwa [hmade, hfreed, List.append_nil, List.append_nil]
  cases hturn with
  | stay => exact hnone rfl rfl h
  | returns => exact hnone rfl rfl h
  | misses => exact hnone rfl rfl h
  | accepts fd hhand hfree =>
    refine hnone rfl rfl ?_
    rw [accept, if_pos ⟨hhand, hfree⟩]
    refine ⟨h.distinct, h.gone, h.subset, h.live, fun j hj => ?_⟩
    obtain ⟨x, hx, hpassed⟩ := h.passed j hj
    refine ⟨x, ?_, hpassed⟩
    have hne : j ≠ s.accepted := by
      rintro rfl
      rw [(hwf.unused _ le_rfl).1] at hx
      cases hx
    exact (Function.update_of_ne hne _ _).trans hx
  | wraps hk hstage =>
    show Ledger _ (made ++ [_]) (freed ++ [])
    rw [List.append_nil]
    exact h.makes hk hstage
  | enlists => exact hnone rfl rfl (h.same rfl rfl nofun)
  | hands hk hstage => exact hnone rfl rfl (h.same rfl rfl (by simp [hstage]))
  | begins => exact hnone rfl rfl (h.same rfl rfl nofun)
  | replies hk hstage hanswered =>
    cases hanswered <;> exact hnone rfl rfl (h.same rfl rfl nofun)
  | erases =>
    cases tls with
    | false => exact hnone rfl rfl (h.same rfl rfl nofun)
    | true => exact hnone rfl rfl (h.same rfl rfl nofun)
  | @frees k conn ssl hk hstage =>
    have hssl := hwf.found k conn hk ssl (by rw [hstage]; rfl)
    subst hssl
    cases tls with
    | false => exact hnone rfl rfl (h.same rfl rfl nofun)
    | true =>
      show Ledger _ (made ++ []) (freed ++ [k])
      rw [List.append_nil]
      exact h.frees (hwf.live hk (by rw [hstage]; rfl) rfl)
  | shuts => exact hnone rfl rfl (h.same rfl rfl nofun)

theorem ledger_run (tls : Bool) (es : List Event) :
    Ledger ((machine tls).run es) (madeIn ((machine tls).emitted es)) (freedIn ((machine tls).emitted es)) := by
  refine Machine.invariant (M := machine tls)
    (P := fun es s => Ledger s (madeIn ((machine tls).emitted es)) (freedIn ((machine tls).emitted es)))
    ?_ (fun es e h => ?_) es
  · exact ⟨List.nodup_nil, List.nodup_nil, List.Subset.refl _, by simp [machine, madeIn], by simp [madeIn]⟩
  · rw [Machine.emitted_snoc, madeIn, freedIn, List.filterMap_append, List.filterMap_append]
    exact h.turn (wf_run tls es) (turn tls _ e)

/-- In every run an SSL object is made once and freed once. One that has not been freed belongs to
a connection that is still there, in front of the end of its `Close`. -/
theorem freed_once (tls : Bool) (es : List Event) :
    (madeIn ((machine tls).emitted es)).Nodup ∧ (freedIn ((machine tls).emitted es)).Nodup ∧
      freedIn ((machine tls).emitted es) ⊆ madeIn ((machine tls).emitted es) ∧
      ∀ k ∈ madeIn ((machine tls).emitted es), k ∉ freedIn ((machine tls).emitted es) →
        ∃ conn, ((machine tls).run es).conns k = some conn ∧ conn.stage.holds = true := by
  have hledger := ledger_run tls es
  refine ⟨hledger.distinct, hledger.gone, hledger.subset, fun k hmade hfreed => ?_⟩
  obtain ⟨conn, hk, -⟩ := hledger.passed k hmade
  refine ⟨conn, hk, ?_⟩
  by_contra hholds
  have hobject := (hledger.live k).mpr ⟨hmade, hfreed⟩
  rw [(wf_run tls es).objects k conn hk, if_neg fun hand => hholds hand.2] at hobject
  exact hobject rfl

end

end GuacamoleServer

end GuacamoleDiode
