import NetworkLab.Backup.Events
set_option autoImplicit false

/-! The messages that a handler sends, and the names that it accepts. -/

namespace NetworkLab.Backup.Server
open Interaction

def replyBy (last : Option Bytes) : Event Res → Option Bytes
  | ⟨.sendto _ datagram,_⟩ => some datagram
  | _ => last

/-- The last datagram that is handed to `sendto`. -/
def lastReply (tr : Trace) : Option Bytes := tr.foldl replyBy none

def sentBy (last : Option Bytes) : Event Res → Option Bytes
  | ⟨.sendto _ datagram,true⟩ => some datagram
  | _ => last

/-- The last datagram that is really sent. -/
def lastSent (tr : Trace) : Option Bytes := tr.foldl sentBy none

def AckOf (error : UInt16) (datagram : Bytes) : Prop :=
  (CmdMsg.received datagram).getCommand = some .ACK ∧ (CmdMsg.received datagram).error = error

/-- An acknowledgement without an error, sent or not. -/
def acks : Event Res → Prop
  | ⟨.sendto _ datagram,_⟩ => AckOf 0 datagram
  | _ => False

def NoAck (tr : Trace) : Prop := ∀ ev ∈ tr, ¬acks ev

/-- The last reply is an acknowledgement without an error. -/
def EndsWithAck (tr : Trace) : Prop := ∃ datagram, lastReply tr = some datagram ∧ AckOf 0 datagram

/-- The last message that is really sent is an acknowledgement without an error. -/
def ClosingAck (tr : Trace) : Prop := ∃ datagram, lastSent tr = some datagram ∧ AckOf 0 datagram

def acceptedBy : Event Res → Option Bytes
  | ⟨.accepted name,_⟩ => some name
  | _ => none

def accepted (tr : Trace) : List Bytes := tr.filterMap acceptedBy

variable {tr tr' : Trace}

@[simp] theorem noAck_nil : NoAck [] := fun _ h => by cases h

@[simp] theorem noAck_cons {ev : Event Res} : NoAck (ev :: tr) ↔ ¬acks ev ∧ NoAck tr :=
  List.forall_mem_cons

@[simp] theorem noAck_append : NoAck (tr ++ tr') ↔ NoAck tr ∧ NoAck tr' :=
  List.forall_mem_append

theorem lastReply_append : lastReply (tr ++ tr') = tr'.foldl replyBy (lastReply tr) :=
  List.foldl_append

/-- The last reply is one of the replies, or the one from before. -/
theorem NoAck.foldl {f : Option Bytes → Event Res → Option Bytes} (h : NoAck tr)
    (hf : ∀ last ev, f last ev = last ∨ ∃ datagram, f last ev = some datagram ∧
      (AckOf 0 datagram → acks ev)) {last : Option Bytes}
    (hlast : ∀ datagram, last = some datagram → ¬AckOf 0 datagram) :
    ∀ datagram, tr.foldl f last = some datagram → ¬AckOf 0 datagram := by
  induction tr generalizing last with
  | nil => exact hlast
  | cons ev tr ih =>
    obtain ⟨hev,htr⟩ := noAck_cons.mp h
    refine ih htr fun datagram hd => ?_
    rcases hf last ev with he | ⟨datagram',he,hack⟩
    · exact hlast datagram (he ▸ hd)
    · obtain rfl := Option.some.inj (he ▸ hd)
      exact fun hc => hev (hack hc)

theorem NoAck.not_endsWithAck (h : NoAck tr) : ¬EndsWithAck tr := by
  rintro ⟨datagram,hd,hack⟩
  refine h.foldl (fun last ev => ?_) (fun _ hc => by cases hc) datagram hd hack
  unfold replyBy
  split
  · exact Or.inr ⟨_,rfl,id⟩
  · exact Or.inl rfl

theorem NoAck.not_closingAck (h : NoAck tr) : ¬ClosingAck tr := by
  rintro ⟨datagram,hd,hack⟩
  refine h.foldl (fun last ev => ?_) (fun _ hc => by cases hc) datagram hd hack
  unfold sentBy
  split
  · exact Or.inr ⟨_,rfl,id⟩
  · exact Or.inl rfl

@[simp] theorem accepted_append : accepted (tr ++ tr') = accepted tr ++ accepted tr' :=
  List.filterMap_append

@[simp] theorem ackOf_encode {error : UInt16} {msg : CmdMsg} :
    AckOf error msg.encode ↔ msg.getCommand = some .ACK ∧ msg.error = error := by
  rw [AckOf,CmdMsg.received_encode]

end NetworkLab.Backup.Server
