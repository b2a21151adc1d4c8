import GuacamoleDiode.Bridge.Connections
import Mathlib.Data.List.Forall2

/-!
# What a browser is sent

`Send` goes on until the kernel has taken everything, over short writes and interrupts, while
the threads of other connections do the same. Whatever the interleaving, a browser gets the
buffers of its own reader, one behind the other and each one whole, up to those with which `Send`
has failed.

## Main definitions

- `GuacamoleServer.Delivered`: what a `Send` that has returned has given to its connection
- `GuacamoleServer.writtenTo`, `GuacamoleServer.sendsOf`: the bytes for a connection, and the calls

## Main results

- `sends_whole`: the bytes for a connection are those of its calls
-/

namespace GuacamoleDiode

open Wire

namespace GuacamoleServer

/-- What a `Send` that has returned has given to its connection. -/
inductive Delivered : Bytes × ℤ → Bytes → Prop where
  | whole (data : Bytes) : Delivered (data, data.length) data
  | cut (data : Bytes) (n : ℕ) (part : n < data.length) : Delivered (data, -1) (data.take n)

/-- The bytes that reach a connection. -/
def writtenTo (k : ℕ) (out : List Effect) : Bytes :=
  out.flatMap fun
    | .wrote _ target data => if target = some k then data else []
    | _ => []

/-- The calls of `Send` of a connection that return, and what they return. -/
def sendsOf (k : ℕ) (out : List Effect) : List (Bytes × ℤ) :=
  out.filterMap fun
    | .returned j (.send data) result => if j = k then some (data, result) else none
    | _ => none

/-- What a `Send` has given to its connection so far. -/
def Stage.underway : Stage → Bytes
  | .calling (.send data) _ total => data.take total
  | _ => []

def underway (s : GuacamoleServer) (k : ℕ) : Bytes := (s.conns k).elim [] fun conn => conn.stage.underway

/-- A `Send` that is under way has something left. -/
def Unfinished (s : GuacamoleServer) : Prop :=
  ∀ k conn data ssl total, s.conns k = some conn → conn.stage = .calling (.send data) ssl total →
    total < data.length

/-- The bytes for a connection are those of its calls. -/
def Sent (k : ℕ) (s : GuacamoleServer) (log : List Effect) : Prop :=
  ∃ pieces, List.Forall₂ Delivered (sendsOf k log) pieces ∧
    writtenTo k log = pieces.flatten ++ s.underway k

section

variable {tls : Bool} {s s' : GuacamoleServer} {j k : ℕ} {conn conn' : Conn} {log out : List Effect}
  {stage : Stage} {op : Op} {data : Bytes} {ssl : Option ℕ} {total n : ℕ} {result : ℤ} {piece : Bytes}

@[simp] theorem writtenTo_append : writtenTo k (log ++ out) = writtenTo k log ++ writtenTo k out :=
  List.flatMap_append ..

@[simp] theorem sendsOf_append : sendsOf k (log ++ out) = sendsOf k log ++ sendsOf k out :=
  List.filterMap_append ..

theorem underway_update (hconns : s'.conns = Function.update s.conns k (some conn')) :
    s'.underway j = if j = k then conn'.stage.underway else s.underway j := by
  rw [underway, hconns]
  split_ifs with hj
  · rw [hj, Function.update_self, Option.elim_some]
  · rw [Function.update_of_ne hj, underway]

theorem underway_of_found (hk : s.conns k = some conn) : s.underway k = conn.stage.underway := by
  rw [underway, hk, Option.elim_some]

/-- A change that no `Send` takes part in. -/
theorem underway_same (hk : s.conns k = some conn)
    (hconns : s'.conns = Function.update s.conns k (some conn'))
    (hsame : conn'.stage.underway = conn.stage.underway) : s'.underway j = s.underway j := by
  rw [underway_update hconns]
  split_ifs with hj
  · rw [hj, underway_of_found hk, hsame]
  · rfl

theorem Sent.quiet (h : Sent k s log) (hwritten : writtenTo k out = []) (hsends : sendsOf k out = [])
    (hunderway : s'.underway k = s.underway k) : Sent k s' (log ++ out) := by
  obtain ⟨pieces, hpieces, heq⟩ := h
  refine ⟨pieces, ?_, ?_⟩
  · rwa [sendsOf_append, hsends, List.append_nil]
  · rw [writtenTo_append, hwritten, List.append_nil, heq, hunderway]

/-- A `Send` returns. -/
theorem Sent.finish (h : Sent k s log) (hsends : sendsOf k out = [(data, result)])
    (hpiece : s.underway k ++ writtenTo k out = piece) (hdelivered : Delivered (data, result) piece)
    (hunderway : s'.underway k = []) : Sent k s' (log ++ out) := by
  obtain ⟨pieces, hpieces, heq⟩ := h
  refine ⟨pieces ++ [piece], ?_, ?_⟩
  · rw [sendsOf_append, hsends]
    exact List.rel_append hpieces (.cons hdelivered .nil)
  · rw [writtenTo_append, heq, List.append_assoc, hpiece, hunderway, List.append_nil,
      List.flatten_append, List.flatten_singleton]

-- ════════════════════════════════════════════════════════════════════════
-- One step
-- ════════════════════════════════════════════════════════════════════════

theorem Unfinished.update (h : Unfinished s) (hconns : s'.conns = Function.update s.conns k (some conn'))
    (hnew : ∀ data ssl total, conn'.stage = .calling (.send data) ssl total → total < data.length) :
    Unfinished s' := by
  intro j x data ssl total hj hstage
  rw [hconns] at hj
  obtain ⟨rfl, rfl⟩ | ⟨-, hj⟩ := Table.of_update hj
  · exact hnew data ssl total hstage
  · exact h j x data ssl total hj hstage

theorem Unfinished.turn (h : Unfinished s) (hturn : Turn tls s s' out) : Unfinished s' := by
  cases hturn with
  | stay => exact h
  | returns => exact h
  | misses => exact h
  | accepts fd hhand hfree =>
    rw [accept, if_pos ⟨hhand, hfree⟩]
    refine h.update (k := s.accepted) rfl ?_
    cases tls <;> simp
  | wraps => exact h.update rfl (by simp)
  | enlists => exact h.update rfl (by simp)
  | hands hk hstage => exact h.update rfl (by simp [hstage])
  | begins op ssl hk hstage hsends =>
    refine h.update rfl fun data ssl' total hcalling => ?_
    cases hcalling
    refine List.length_pos_iff.mpr ?_
    rintro rfl
    exact hsends rfl
  | replies hk hstage hanswered =>
    cases hanswered with
    | returns => exact h.update rfl (by simp)
    | ends => exact h.update rfl (by simp)
    | takes data n hsend hpart =>
      refine h.update rfl fun data' ssl' total' hcalling => ?_
      cases hsend
      cases hcalling
      exact hpart
    | again =>
      refine h.update rfl fun data' ssl' total' hcalling => ?_
      cases hcalling
      exact h _ _ _ _ _ hk hstage
  | erases =>
    cases tls with
    | false => exact h.update rfl (by simp)
    | true => exact h.update rfl (by simp)
  | @frees k conn ssl =>
    cases ssl with
    | none => exact h.update rfl (by simp)
    | some ssl => exact h.update rfl (by simp)
  | shuts => exact h.update rfl (by simp)

theorem unfinished_run (tls : Bool) (es : List Event) : Unfinished ((machine tls).run es) :=
  Machine.invariant (M := machine tls) (P := fun _ s => Unfinished s)
    (by simp [Unfinished, machine]) (fun es e h => h.turn (turn tls ((machine tls).run es) e)) es

/-- A call of the connection `j` has been answered. -/
theorem Sent.answered (h : Sent k s log) (hunfinished : Unfinished s)
    (hj : s.conns j = some conn) (hstage : conn.stage = .calling op ssl total)
    (hanswered : Answered tls j op ssl (some j) total stage out) :
    Sent k (s.goOn j conn stage) (log ++ out) := by
  have hconns : (s.goOn j conn stage).conns = Function.update s.conns j (some { conn with stage }) := rfl
  have hbefore := underway_of_found hj
  rw [hstage] at hbefore
  by_cases hkj : k = j
  · subst hkj
    have hafter := underway_update (j := k) hconns
    rw [if_pos rfl] at hafter
    cases hanswered with
    | returns result hfails =>
      cases op with
      | send data =>
        have hpart := hunfinished k conn data ssl total hj hstage
        obtain rfl := hfails data rfl
        have hsends : sendsOf k [.called k ssl (some k), .returned k (.send data) (-1)] = [(data, -1)] := by
          simp [sendsOf]
        refine h.finish hsends ?_ (.cut data total hpart) hafter
        simp [hbefore, writtenTo, Stage.underway]
      | _ => exact h.quiet rfl rfl (hafter.trans hbefore.symm)
    | takes data n hsend =>
      subst hsend
      obtain ⟨pieces, hpieces, heq⟩ := h
      refine ⟨pieces, ?_, ?_⟩
      · simpa [sendsOf] using hpieces
      · have hmore : (s.goOn k conn (.calling (.send data) ssl (total + n))).underway k =
            s.underway k ++ (data.drop total).take n := by
          rw [hafter, hbefore]
          exact List.take_add
        rw [writtenTo_append, heq, hmore]
        simp [writtenTo]
    | ends data n hsend hwhole =>
      subst hsend
      have hresult : ((total : ℤ) + n) = data.length := by omega
      have hsends : sendsOf k [.called k ssl (some k), .wrote k (some k) ((data.drop total).take n),
          .returned k (.send data) (total + n)] = [(data, (data.length : ℤ))] := by
        simp [sendsOf, hresult]
      refine h.finish hsends ?_ (.whole data) hafter
      have hpiece : data.take total ++ (data.drop total).take n = data := by
        rw [← List.take_add, hwhole, List.take_length]
      simpa [hbefore, writtenTo, Stage.underway] using hpiece
    | again => exact h.quiet rfl rfl (hafter.trans hbefore.symm)
  · have hafter := underway_update (j := k) hconns
    rw [if_neg hkj] at hafter
    have hjk : j ≠ k := Ne.symm hkj
    refine h.quiet ?_ ?_ hafter
    · cases hanswered <;> simp [writtenTo, hjk]
    · cases hanswered with
      | returns => cases op <;> simp [sendsOf, hjk]
      | takes => simp [sendsOf]
      | ends data n hsend =>
        subst hsend
        simp [sendsOf, hjk]
      | again => rfl

theorem Sent.turn (h : Sent k s log) (hwf : Wf tls s) (hunfinished : Unfinished s)
    (hturn : Turn tls s s' out) : Sent k s' (log ++ out) := by
  cases hturn with
  | stay => exact h.quiet rfl rfl rfl
  | @returns j op result hsends =>
    by_cases hkj : j = k
    · cases op with
      | send data =>
        obtain ⟨rfl, rfl⟩ := hsends data rfl
        obtain ⟨pieces, hpieces, heq⟩ := h
        refine ⟨pieces ++ [[]], ?_, ?_⟩
        · rw [sendsOf_append]
          refine List.rel_append hpieces ?_
          have hempty : Delivered ([], (([] : Bytes).length : ℤ)) [] := .whole []
          simpa [sendsOf, hkj] using hempty
        · have hnothing : writtenTo k [.returned j (.send []) 0] = [] := rfl
          rw [writtenTo_append, heq, hnothing, List.append_nil, List.flatten_append]
          simp
      | _ => exact h.quiet rfl rfl rfl
    · refine h.quiet rfl ?_ rfl
      cases op <;> simp [sendsOf, hkj]
  | misses op result hj hstage htls hmissing =>
    subst htls
    rw [hwf.sslFor hj (by rw [hstage]; rfl)] at hmissing
    cases hmissing
  | accepts fd hhand hfree =>
    refine h.quiet rfl rfl ?_
    have hnone := (hwf.unused s.accepted le_rfl).1
    rw [accept, if_pos ⟨hhand, hfree⟩, underway_update (k := s.accepted) rfl]
    by_cases hk : k = s.accepted
    · rw [if_pos hk, hk, underway, hnone]
      cases tls <;> rfl
    · rw [if_neg hk]
  | wraps hj hstage => exact h.quiet rfl rfl (underway_same hj rfl (by rw [hstage]; rfl))
  | enlists hj hstage => exact h.quiet rfl rfl (underway_same hj rfl (by rw [hstage]; rfl))
  | hands hj => exact h.quiet rfl rfl (underway_same hj rfl rfl)
  | begins op ssl hj hstage =>
    refine h.quiet rfl rfl (underway_same hj rfl ?_)
    rw [hstage]
    cases op with
    | send data => rfl
    | _ => rfl
  | @replies j conn op ssl total stage' out hj hstage hanswered =>
    have htarget : s.target conn.fd ssl = some j := by
      rw [hwf.found j conn hj ssl (by rw [hstage]; rfl)]
      exact hwf.target hj (by simp [hstage]) (by rw [hstage]; rfl)
    rw [htarget] at hanswered
    exact h.answered hunfinished hj hstage hanswered
  | erases hj hstage =>
    cases tls with
    | false => exact h.quiet rfl rfl (underway_same hj rfl (by rw [hstage]; rfl))
    | true => exact h.quiet rfl rfl (underway_same hj rfl (by rw [hstage]; rfl))
  | @frees j conn ssl hj hstage =>
    cases ssl with
    | none => exact h.quiet rfl rfl (underway_same hj rfl (by rw [hstage]; rfl))
    | some ssl => exact h.quiet rfl rfl (underway_same hj rfl (by rw [hstage]; rfl))
  | shuts hj hstage =>
    refine h.quiet rfl rfl (underway_same hj rfl ?_)
    obtain hstage | hstage := hstage <;> rw [hstage] <;> rfl

theorem sent_run (tls : Bool) (k : ℕ) (es : List Event) :
    Sent k ((machine tls).run es) ((machine tls).emitted es) := by
  refine Machine.invariant (M := machine tls) (P := fun es s => Sent k s ((machine tls).emitted es))
    ⟨[], .nil, rfl⟩ (fun es e h => ?_) es
  rw [Machine.emitted_snoc]
  exact h.turn (wf_run tls es) (unfinished_run tls es) (turn tls _ e)

theorem flatten_of_whole {calls : List (Bytes × ℤ)} {pieces : List Bytes}
    (h : List.Forall₂ Delivered calls pieces) (hwhole : ∀ call ∈ calls, call.2 ≠ -1) :
    pieces = calls.map Prod.fst := by
  induction h with
  | nil => rfl
  | cons hdelivered _ ih =>
    rw [List.map_cons, ih fun call hcall => hwhole call (List.mem_cons_of_mem _ hcall)]
    cases hdelivered with
    | whole data => rfl
    | cut data n => exact absurd rfl (hwhole _ List.mem_cons_self)

/-- In every run, whatever the kernel takes at a time and whichever descriptors it gives out again,
what reaches a connection are the buffers that its own reader has sent, in order: each one whole,
or cut where `Send` has failed. If none has failed, nothing is missing. -/
theorem sends_whole (tls : Bool) (es : List Event) (k : ℕ) :
    (∃ pieces, List.Forall₂ Delivered (sendsOf k ((machine tls).emitted es)) pieces ∧
        writtenTo k ((machine tls).emitted es) = pieces.flatten ++ ((machine tls).run es).underway k) ∧
      ((∀ call ∈ sendsOf k ((machine tls).emitted es), call.2 ≠ -1) →
        writtenTo k ((machine tls).emitted es) =
          ((sendsOf k ((machine tls).emitted es)).map Prod.fst).flatten ++
            ((machine tls).run es).underway k) := by
  obtain ⟨pieces, hpieces, heq⟩ := sent_run tls k es
  refine ⟨⟨pieces, hpieces, heq⟩, fun hwhole => ?_⟩
  rw [heq, flatten_of_whole hpieces hwhole]

/-- The next connection gets the same descriptor. -/
example : writtenTo 1 ((machine false).emitted
    [.accept 5, .allocate true, .call 0 (.send (ascii "nop")), .answer 0 (.done 2), .answer 0 .failed,
      .close 0, .free 0, .release 0, .accept 5, .allocate true, .call 1 (.send (ascii "ack")),
      .answer 1 (.done 1), .answer 1 .interrupted, .answer 1 (.done 2)]) = ascii "ack" := by
  decide

end

end GuacamoleServer

end GuacamoleDiode
