import NetworkLab.Backup.System
set_option autoImplicit false

/-! The datagrams of a trace. -/

namespace NetworkLab.Backup
open Interaction

def sentBy : Event Res → Option Bytes
  | ⟨.sendto _ datagram,_⟩ => some datagram
  | _ => none

/-- The datagrams that were handed to the socket. -/
def sends (tr : Trace) : List Bytes := tr.filterMap sentBy

def gotBy : Event Res → Option Bytes
  | ⟨.recvfrom _,r⟩ => r.map Prod.snd
  | _ => none

/-- The datagrams that came. -/
def gets (tr : Trace) : List Bytes := tr.filterMap gotBy

/-- A receive finds a datagram, and what is handed to the socket goes out. -/
def Prompt : Event Res → Prop
  | ⟨.recvfrom _,r⟩ => r ≠ none
  | ⟨.sendto _ _,ok⟩ => ok = true
  | _ => True

section Datagrams
variable {tr tr' : Trace} {dest : Addr} {d : Bytes} {ok : Bool} {size : Nat}
variable {r : Option (Addr × Bytes)}

@[simp] theorem sends_nil : sends [] = [] := rfl

@[simp] theorem sends_sendto : sends (⟨.sendto dest d,ok⟩ :: tr) = d :: sends tr := rfl

@[simp] theorem sends_recvfrom : sends (⟨.recvfrom size,r⟩ :: tr) = sends tr := rfl

@[simp] theorem sends_answer {answer : Bytes} : sends (⟨.answer,answer⟩ :: tr) = sends tr := rfl

@[simp] theorem gets_nil : gets [] = [] := rfl

@[simp] theorem gets_sendto : gets (⟨.sendto dest d,ok⟩ :: tr) = gets tr := rfl

@[simp] theorem gets_none : gets (⟨.recvfrom size,none⟩ :: tr) = gets tr := rfl

@[simp] theorem gets_some : gets (⟨.recvfrom size,some (dest,d)⟩ :: tr) = d :: gets tr := rfl

@[simp] theorem gets_answer {answer : Bytes} : gets (⟨.answer,answer⟩ :: tr) = gets tr := rfl

end Datagrams

end NetworkLab.Backup
