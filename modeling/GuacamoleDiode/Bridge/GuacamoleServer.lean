import GuacamoleDiode.Bridge.Multiplexer
import GuacamoleDiode.Lib.Directory
import GuacamoleDiode.Lib.Machine
import Mathlib.Data.List.Count

/-!
# The server that the browsers connect to

`GuacamoleServer` with and without TLS, and the threads that call it: the accept thread, which
has a connection until there is a channel for it, and a reader for every connection that has
got one. The kernel gives the number of a closed descriptor to the next connection, and with TLS
each connection has an SSL object, which is found under the number of its descriptor.

## Design notes

- Connections are numbered in the order in which they are accepted. `Accept` makes at most one
  SSL object for each of them, so that the object has the same number.
- The map is behind a lock, OpenSSL and the kernel are not: a step is one access to the map, or
  one call. A call reaches the connection that the kernel has behind the descriptor at this
  time.
- Which number the kernel gives out, and what OpenSSL and the kernel answer, is part of the
  event. An event that does not apply changes nothing.

## Main definitions

- `GuacamoleServer`: the map, the kernel, the SSL objects, and where the threads stand
- `GuacamoleServer.step`: one access of one thread
-/

namespace GuacamoleDiode

open Wire

namespace GuacamoleServer

/-- The thread that has a connection. The reader of a connection has its number. -/
inductive Thread where
  | acceptor
  | reader (k : ℕ)
  deriving DecidableEq, Repr

/-- What a reader calls before `Close`. -/
inductive Op where
  | hasPending
  | receive
  | send (data : Bytes)
  deriving DecidableEq, Repr

/-- What OpenSSL or the kernel answers. -/
inductive Answer where
  /-- so many bytes have been read, taken, or are pending; `SSL_write` takes a buffer in records,
  and returns behind the last one -/
  | done (n : ℕ)
  /-- `EAGAIN`, `SSL_ERROR_WANT_READ` or `SSL_ERROR_WANT_WRITE` -/
  | again
  /-- `EINTR` -/
  | interrupted
  /-- the peer has closed the connection -/
  | ended
  | failed
  deriving DecidableEq, Repr

/-- How far a connection has come. -/
inductive Stage where
  /-- `Accept`, in front of `SSL_new` -/
  | accepted
  /-- `Accept`, behind `SSL_set_fd` -/
  | wrapped
  /-- in none of the calls -/
  | idle
  /-- behind `SslFor`; so many bytes of a `Send` have been taken -/
  | calling (op : Op) (ssl : Option ℕ) (total : ℕ)
  /-- `Close`, behind the removal from the map -/
  | erased (ssl : Option ℕ)
  /-- `Close`, in front of `::close` -/
  | freed
  | closed
  deriving DecidableEq, Repr

/-- The local variables of the thread that has a connection. -/
structure Conn where
  fd : ℕ
  owner : Thread := .acceptor
  stage : Stage
  deriving DecidableEq, Repr

inductive Event where
  /-- `::accept` returns a descriptor -/
  | accept (fd : ℕ)
  /-- `SSL_new`, and `SSL_set_fd` if there is an object -/
  | wrap (made : Bool)
  /-- the object is entered in the map -/
  | enlist
  /-- `Allocate` of the channel table returns -/
  | allocate (room : Bool)
  /-- a reader calls, and looks up its object -/
  | call (k : ℕ) (op : Op)
  /-- OpenSSL or the kernel answers -/
  | answer (k : ℕ) (answer : Answer)
  /-- a reader calls `Close` -/
  | close (k : ℕ)
  /-- `Close` frees the object -/
  | free (k : ℕ)
  /-- `Close` closes the descriptor -/
  | release (k : ℕ)
  deriving DecidableEq, Repr

/-- What the thread of a connection does to the rest of the system. -/
inductive Effect where
  /-- an SSL object is made -/
  | made (k : ℕ)
  | enlisted (k fd : ℕ)
  /-- `SslFor` finds nothing -/
  | missing (k : ℕ)
  /-- a call with an SSL object or a descriptor, and the connection that it reaches -/
  | called (k : ℕ) (ssl : Option ℕ) (target : Option ℕ)
  /-- bytes are given to a connection -/
  | wrote (k : ℕ) (target : Option ℕ) (data : Bytes)
  | returned (k : ℕ) (op : Op) (result : ℤ)
  /-- an SSL object is freed -/
  | freed (k ssl : ℕ)
  /-- a descriptor is closed, and with it a connection -/
  | closed (k : ℕ) (target : Option ℕ)
  deriving DecidableEq, Repr

/-- `Receive` returns this when the TLS layer has no application data yet. -/
def retry : ℤ := -2

/-- What `Receive` returns. -/
def received (tls : Bool) : Answer → ℤ
  | .done n => if tls ∧ n = 0 then -1 else n
  | .again => if tls then retry else 0
  | .ended => 0
  | .interrupted | .failed => -1

/-- What `HasPending` returns, as a number. -/
def pending : Answer → ℤ
  | .done n => if n = 0 then 0 else 1
  | _ => 0

/-- The kernel does not take more than it is offered, and neither does `SSL_write`. -/
def Answer.possible (op : Op) (total : ℕ) : Answer → Bool
  | .done n =>
    match op with
    | .send data => total + n ≤ data.length
    | _ => true
  | _ => true

end GuacamoleServer

open GuacamoleServer in
/-- The server, the kernel, and where the threads stand. -/
structure GuacamoleServer where
  sslByFd : ℕ → Option ℕ := fun _ => none
  /-- the connection behind each open descriptor -/
  sockets : ℕ → Option ℕ := fun _ => none
  /-- the descriptor of each SSL object that has not been freed -/
  objects : ℕ → Option ℕ := fun _ => none
  conns : ℕ → Option Conn := fun _ => none
  /-- how many connections have been accepted -/
  accepted : ℕ := 0
  /-- the connection that the accept thread has -/
  hand : Option ℕ := none

namespace GuacamoleServer

/-- `SslFor`. -/
def sslFor (s : GuacamoleServer) (fd : ℕ) : Option ℕ := s.sslByFd fd

/-- The connection that a call reaches, through an SSL object or directly. -/
def target (s : GuacamoleServer) (fd : ℕ) : Option ℕ → Option ℕ
  | some ssl => (s.objects ssl).bind s.sockets
  | none => s.sockets fd

/-- The thread of a connection goes on to a stage. -/
def goOn (s : GuacamoleServer) (k : ℕ) (conn : Conn) (stage : Stage) : GuacamoleServer :=
  { s with conns := Function.update s.conns k (some { conn with stage }) }

/-- `::close`. -/
def shut (s : GuacamoleServer) (k : ℕ) (conn : Conn) : GuacamoleServer × List Effect :=
  ({ s.goOn k conn .closed with
      sockets := Function.update s.sockets conn.fd none
      hand := if s.hand = some k then none else s.hand },
    [.closed k (s.sockets conn.fd)])

/-- `Accept`, up to the system call. -/
def accept (tls : Bool) (s : GuacamoleServer) (fd : ℕ) : GuacamoleServer × List Effect :=
  if s.hand = none ∧ s.sockets fd = none then
    let conn : Conn := { fd := fd, stage := if tls then .accepted else .idle }
    ({ s with
        sockets := Function.update s.sockets fd (some s.accepted)
        conns := Function.update s.conns s.accepted (some conn)
        accepted := s.accepted + 1
        hand := some s.accepted }, [])
  else (s, [])

/-- The rest of `Accept` with TLS. -/
def wrap (s : GuacamoleServer) (k : ℕ) (conn : Conn) (made : Bool) : GuacamoleServer × List Effect :=
  if made then
    ({ s.goOn k conn .wrapped with objects := Function.update s.objects k (some conn.fd) }, [.made k])
  else s.shut k conn

def enlist (s : GuacamoleServer) (k : ℕ) (conn : Conn) : GuacamoleServer × List Effect :=
  ({ s.goOn k conn .idle with sslByFd := Function.update s.sslByFd conn.fd (some k) },
    [.enlisted k conn.fd])

/-- `Close`, up to the removal from the map. -/
def close (tls : Bool) (s : GuacamoleServer) (k : ℕ) (conn : Conn) : GuacamoleServer × List Effect :=
  if tls then
    ({ s.goOn k conn (.erased (s.sslFor conn.fd)) with
        sslByFd := Function.update s.sslByFd conn.fd none }, [])
  else (s.goOn k conn .freed, [])

/-- The accept thread gives the connection to a reader, or closes it. -/
def allocate (tls : Bool) (s : GuacamoleServer) (k : ℕ) (conn : Conn) (room : Bool) :
    GuacamoleServer × List Effect :=
  if room then
    ({ s with
        conns := Function.update s.conns k (some { conn with owner := .reader k })
        hand := none }, [])
  else s.close tls k conn

/-- `HasPending`, `Receive` and `Send`, up to the first call. -/
def call (tls : Bool) (s : GuacamoleServer) (k : ℕ) (conn : Conn) (op : Op) :
    GuacamoleServer × List Effect :=
  if op = .send [] then (s, [.returned k op 0])
  else if tls then
    match s.sslFor conn.fd with
    | none => (s, [.missing k, .returned k op (if op = .hasPending then 0 else -1)])
    | some ssl => (s.goOn k conn (.calling op (some ssl) 0), [])
  else if op = .hasPending then (s, [.returned k op 0])
  else (s.goOn k conn (.calling op none 0), [])

/-- What follows from the answer to a `Send`. The rest is sent next, by another call or, with TLS,
as another record of the same call. It may fail in between in either case. -/
def sent (tls : Bool) (s : GuacamoleServer) (k : ℕ) (conn : Conn) (data : Bytes) (ssl : Option ℕ)
    (total : ℕ) : Answer → GuacamoleServer × List Effect
  | .done n =>
    let chunk := (data.drop total).take n
    let wrote : List Effect := [.called k ssl (s.target conn.fd ssl), .wrote k (s.target conn.fd ssl) chunk]
    if total + n < data.length then
      (s.goOn k conn (.calling (.send data) ssl (total + n)), wrote)
    else (s.goOn k conn .idle, wrote ++ [.returned k (.send data) (total + n)])
  | .interrupted =>
    if tls then
      (s.goOn k conn .idle, [.called k ssl (s.target conn.fd ssl), .returned k (.send data) (-1)])
    else (s, [.called k ssl (s.target conn.fd ssl)])
  | _ => (s.goOn k conn .idle, [.called k ssl (s.target conn.fd ssl), .returned k (.send data) (-1)])

/-- OpenSSL or the kernel answers. -/
def answer (tls : Bool) (s : GuacamoleServer) (k : ℕ) (conn : Conn) (op : Op) (ssl : Option ℕ)
    (total : ℕ) (a : Answer) : GuacamoleServer × List Effect :=
  if a.possible op total then
    match op with
    | .hasPending =>
      (s.goOn k conn .idle, [.called k ssl (s.target conn.fd ssl), .returned k op (pending a)])
    | .receive =>
      (s.goOn k conn .idle, [.called k ssl (s.target conn.fd ssl), .returned k op (received tls a)])
    | .send data => s.sent tls k conn data ssl total a
  else (s, [])

/-- The SSL part of `Close`. -/
def free (s : GuacamoleServer) (k : ℕ) (conn : Conn) : Option ℕ → GuacamoleServer × List Effect
  | none => (s.goOn k conn .freed, [])
  | some ssl =>
    ({ s.goOn k conn .freed with objects := Function.update s.objects ssl none },
      [.called k (some ssl) (s.target conn.fd (some ssl)), .freed k ssl])

/-- The connection that the accept thread has, and where it stands. -/
def inHand (s : GuacamoleServer) : Option (ℕ × Conn) :=
  s.hand.bind fun k => (s.conns k).map fun conn => (k, conn)

def step (tls : Bool) (s : GuacamoleServer) : Event → GuacamoleServer × List Effect
  | .accept fd => s.accept tls fd
  | .wrap made =>
    match s.inHand with
    | some (k, conn) => if conn.stage = .accepted then s.wrap k conn made else (s, [])
    | none => (s, [])
  | .enlist =>
    match s.inHand with
    | some (k, conn) => if conn.stage = .wrapped then s.enlist k conn else (s, [])
    | none => (s, [])
  | .allocate room =>
    match s.inHand with
    | some (k, conn) => if conn.stage = .idle then s.allocate tls k conn room else (s, [])
    | none => (s, [])
  | .call k op =>
    match s.conns k with
    | some conn =>
      if conn.stage = .idle ∧ conn.owner = .reader k then s.call tls k conn op else (s, [])
    | none => (s, [])
  | .answer k a =>
    match s.conns k with
    | some conn =>
      match conn.stage with
      | .calling op ssl total => s.answer tls k conn op ssl total a
      | _ => (s, [])
    | none => (s, [])
  | .close k =>
    match s.conns k with
    | some conn =>
      if conn.stage = .idle ∧ conn.owner = .reader k then s.close tls k conn else (s, [])
    | none => (s, [])
  | .free k =>
    match s.conns k with
    | some conn =>
      match conn.stage with
      | .erased ssl => s.free k conn ssl
      | _ => (s, [])
    | none => (s, [])
  | .release k =>
    match s.conns k with
    | some conn => if conn.stage = .freed then s.shut k conn else (s, [])
    | none => (s, [])

/-- The server, with or without TLS. -/
def machine (tls : Bool) : Machine GuacamoleServer Event Effect where
  init := {}
  step := step tls

end GuacamoleServer

end GuacamoleDiode
