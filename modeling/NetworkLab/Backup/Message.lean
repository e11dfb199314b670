import NetworkLab.Backup.Utils
import Mathlib.Tactic.IntervalCases
set_option autoImplicit false

/-! The two datagrams of the protocol, `message.h`, and the error codes. The structures
are packed and go over the wire in host byte order, here the little-endian one. -/

namespace NetworkLab.Backup

def dataBufLen : Nat := 3000

inductive Command where
  | NONE | LS | SEND | GET | REMOVE | RENAME | SHUTDOWN | ACK | ACK_PORT | FILE_EXISTS
  | OVERWRITE | READY_FOR_NEW_NAME
  deriving DecidableEq, Repr

def Command.code : Command → UInt8
  | .NONE => 0
  | .LS => 1
  | .SEND => 2
  | .GET => 3
  | .REMOVE => 4
  | .RENAME => 5
  | .SHUTDOWN => 6
  | .ACK => 7
  | .ACK_PORT => 8
  | .FILE_EXISTS => 9
  | .OVERWRITE => 10
  | .READY_FOR_NEW_NAME => 11

/-- `static_cast<Command>(cmd)`; any other byte is no enumerator, which every `switch`
sends to its default. -/
def Command.ofCode (c : UInt8) : Option Command :=
  [NONE,LS,SEND,GET,REMOVE,RENAME,SHUTDOWN,ACK,ACK_PORT,FILE_EXISTS,OVERWRITE,
    READY_FOR_NEW_NAME].find? fun k => k.code = c

@[simp] theorem Command.ofCode_code (k : Command) : Command.ofCode k.code = some k := by
  cases k <;> decide

def commandToString : Option Command → String
  | some .NONE => "NONE"
  | some .LS => "CMD_LS"
  | some .SEND => "CMD_SEND"
  | some .GET => "CMD_GET"
  | some .REMOVE => "CMD_REMOVE"
  | some .RENAME => "CMD_RENAME"
  | some .SHUTDOWN => "CMD_SHUTDOWN"
  | some .ACK => "CMD_ACK"
  | some .ACK_PORT => "CMD_ACK_PORT"
  | some .FILE_EXISTS => "CMD_FILE_EXISTS"
  | some .OVERWRITE => "CMD_OVERWRITE"
  | some .READY_FOR_NEW_NAME => "CMD_READY_FOR_NEW_NAME"
  | none => "UNKNOWN"

inductive ErrorCode where
  | SUCCESS
  | UNKNOWN_ERROR | INVALID_ARGUMENT | TIMEOUT | CANCELLED
  | FILE_NOT_FOUND | FILE_EXISTS | FILE_OPEN_ERROR | FILE_READ_ERROR | FILE_WRITE_ERROR
  | FILE_DELETE_ERROR | FILE_RENAME_ERROR | INVALID_FILENAME | PATH_TRAVERSAL_ATTEMPT
  | FILE_TOO_LARGE
  | DIRECTORY_NOT_FOUND | DIRECTORY_CREATE_ERROR | DIRECTORY_READ_ERROR
  | SOCKET_CREATE_ERROR | SOCKET_BIND_ERROR | SOCKET_LISTEN_ERROR | SOCKET_ACCEPT_ERROR
  | SOCKET_CONNECT_ERROR | SOCKET_SEND_ERROR | SOCKET_RECV_ERROR | CONNECTION_CLOSED
  | CONNECTION_TIMEOUT
  | INVALID_COMMAND | INVALID_MESSAGE | UNEXPECTED_RESPONSE | PROTOCOL_ERROR
  | SERVER_BUSY | SERVER_SHUTDOWN
  deriving DecidableEq, Repr

def ErrorCode.value : ErrorCode → UInt16
  | .SUCCESS => 0
  | .UNKNOWN_ERROR => 1 | .INVALID_ARGUMENT => 2 | .TIMEOUT => 3 | .CANCELLED => 4
  | .FILE_NOT_FOUND => 100 | .FILE_EXISTS => 101 | .FILE_OPEN_ERROR => 102
  | .FILE_READ_ERROR => 103 | .FILE_WRITE_ERROR => 104 | .FILE_DELETE_ERROR => 105
  | .FILE_RENAME_ERROR => 106 | .INVALID_FILENAME => 107 | .PATH_TRAVERSAL_ATTEMPT => 108
  | .FILE_TOO_LARGE => 109
  | .DIRECTORY_NOT_FOUND => 200 | .DIRECTORY_CREATE_ERROR => 201
  | .DIRECTORY_READ_ERROR => 202
  | .SOCKET_CREATE_ERROR => 300 | .SOCKET_BIND_ERROR => 301 | .SOCKET_LISTEN_ERROR => 302
  | .SOCKET_ACCEPT_ERROR => 303 | .SOCKET_CONNECT_ERROR => 304 | .SOCKET_SEND_ERROR => 305
  | .SOCKET_RECV_ERROR => 306 | .CONNECTION_CLOSED => 307 | .CONNECTION_TIMEOUT => 308
  | .INVALID_COMMAND => 400 | .INVALID_MESSAGE => 401 | .UNEXPECTED_RESPONSE => 402
  | .PROTOCOL_ERROR => 403
  | .SERVER_BUSY => 500 | .SERVER_SHUTDOWN => 501

def errorCodeToString : ErrorCode → String
  | .SUCCESS => "SUCCESS"
  | .UNKNOWN_ERROR => "UNKNOWN_ERROR"
  | .INVALID_ARGUMENT => "INVALID_ARGUMENT"
  | .TIMEOUT => "TIMEOUT"
  | .CANCELLED => "CANCELLED"
  | .FILE_NOT_FOUND => "FILE_NOT_FOUND"
  | .FILE_EXISTS => "FILE_EXISTS"
  | .FILE_OPEN_ERROR => "FILE_OPEN_ERROR"
  | .FILE_READ_ERROR => "FILE_READ_ERROR"
  | .FILE_WRITE_ERROR => "FILE_WRITE_ERROR"
  | .FILE_DELETE_ERROR => "FILE_DELETE_ERROR"
  | .FILE_RENAME_ERROR => "FILE_RENAME_ERROR"
  | .INVALID_FILENAME => "INVALID_FILENAME"
  | .PATH_TRAVERSAL_ATTEMPT => "PATH_TRAVERSAL_ATTEMPT"
  | .FILE_TOO_LARGE => "FILE_TOO_LARGE"
  | .DIRECTORY_NOT_FOUND => "DIRECTORY_NOT_FOUND"
  | .DIRECTORY_CREATE_ERROR => "DIRECTORY_CREATE_ERROR"
  | .DIRECTORY_READ_ERROR => "DIRECTORY_READ_ERROR"
  | .SOCKET_CREATE_ERROR => "SOCKET_CREATE_ERROR"
  | .SOCKET_BIND_ERROR => "SOCKET_BIND_ERROR"
  | .SOCKET_LISTEN_ERROR => "SOCKET_LISTEN_ERROR"
  | .SOCKET_ACCEPT_ERROR => "SOCKET_ACCEPT_ERROR"
  | .SOCKET_CONNECT_ERROR => "SOCKET_CONNECT_ERROR"
  | .SOCKET_SEND_ERROR => "SOCKET_SEND_ERROR"
  | .SOCKET_RECV_ERROR => "SOCKET_RECV_ERROR"
  | .CONNECTION_CLOSED => "CONNECTION_CLOSED"
  | .CONNECTION_TIMEOUT => "CONNECTION_TIMEOUT"
  | .INVALID_COMMAND => "INVALID_COMMAND"
  | .INVALID_MESSAGE => "INVALID_MESSAGE"
  | .UNEXPECTED_RESPONSE => "UNEXPECTED_RESPONSE"
  | .PROTOCOL_ERROR => "PROTOCOL_ERROR"
  | .SERVER_BUSY => "SERVER_BUSY"
  | .SERVER_SHUTDOWN => "SERVER_SHUTDOWN"

/-! Integers in memory. -/

def le16 (x : UInt16) : Bytes := [x.toUInt8,(x >>> 8).toUInt8]

def le32 (x : UInt32) : Bytes :=
  [x.toUInt8,(x >>> 8).toUInt8,(x >>> 16).toUInt8,(x >>> 24).toUInt8]

def ofLe (bs : Bytes) : Nat := bs.foldr (fun b n => b.toNat + 256 * n) 0

theorem ofLe_le16 (x : UInt16) : ofLe (le16 x) = x.toNat := by
  have := x.toNat_lt
  simp [ofLe,le16,UInt16.toNat_toUInt8,Nat.shiftRight_eq_div_pow]
  omega

theorem ofLe_le32 (x : UInt32) : ofLe (le32 x) = x.toNat := by
  have := x.toNat_lt
  simp [ofLe,le32,UInt32.toNat_toUInt8,Nat.shiftRight_eq_div_pow]
  omega

/-- `recvfrom` into a buffer: a long datagram is cut, a short one leaves the rest as it
was. -/
def overlay (buffer datagram : Bytes) : Bytes :=
  datagram.take buffer.length ++ buffer.drop datagram.length

theorem overlay_full {buffer datagram : Bytes} (h : datagram.length = buffer.length) :
    overlay buffer datagram = datagram := by
  rw [overlay,List.take_of_length_le h.le,List.drop_eq_nil_of_le h.ge,List.append_nil]

@[simp] theorem overlay_length (buffer datagram : Bytes) :
    (overlay buffer datagram).length = buffer.length := by
  simp only [overlay,List.length_append,List.length_take,List.length_drop]
  omega

/-- `struct CmdMsg`. -/
structure CmdMsg where
  cmd : UInt8
  filename : Vector UInt8 128
  size : UInt32
  port : UInt16
  error : UInt16
  deriving DecidableEq, Repr

namespace CmdMsg

/-- The constructor. -/
def new : CmdMsg :=
  { cmd := 0, filename := Vector.replicate 128 0, size := 0, port := 0, error := 0 }

def getCommand (msg : CmdMsg) : Option Command := Command.ofCode msg.cmd

/-- `strncpy` of a C string, then the last byte is set to zero. -/
def setFilename (name : Bytes) (msg : CmdMsg) : CmdMsg :=
  let copied := (cString name).take 127
  { msg with filename := Vector.ofFn fun i => copied.getD i 0 }

/-- The fields behind `cmd`, where a C string read from `filename` goes on. -/
def tail (msg : CmdMsg) : Bytes :=
  msg.filename.toList ++ le32 msg.size ++ le16 msg.port ++ le16 msg.error

/-- The 137 bytes that are sent. -/
def encode (msg : CmdMsg) : Bytes := msg.cmd :: msg.tail

@[simp] theorem encode_length (msg : CmdMsg) : msg.encode.length = 137 := by
  simp [encode,tail,le16,le32]

/-- The fields of a `CmdMsg` in memory. -/
def decode (bytes : Bytes) : CmdMsg :=
  { cmd := bytes.getD 0 0
    filename := Vector.ofFn fun i => bytes.getD (1 + i) 0
    size := UInt32.ofNat (ofLe ((bytes.drop 129).take 4))
    port := UInt16.ofNat (ofLe ((bytes.drop 133).take 2))
    error := UInt16.ofNat (ofLe ((bytes.drop 135).take 2)) }

/-- A message that was just constructed, after `recvfrom` into it. -/
def received (datagram : Bytes) : CmdMsg := decode (overlay new.encode datagram)

theorem decode_encode (msg : CmdMsg) : decode msg.encode = msg := by
  obtain ⟨c,f,s,p,e⟩ := msg
  have hf : f.toList.length = 128 := by simp
  have hdrop : ∀ k, (f.toList ++ (le32 s ++ (le16 p ++ le16 e))).drop (128 + k) =
      (le32 s ++ (le16 p ++ le16 e)).drop k := by
    intro k
    rw [List.drop_append,hf,List.drop_eq_nil_of_le (by omega),List.nil_append,
      Nat.add_sub_cancel_left]
  have h129 := hdrop 0
  have h133 := hdrop 4
  have h135 := hdrop 6
  simp only [decode,encode,tail,List.append_assoc,CmdMsg.mk.injEq]
  refine ⟨by simp,?_,?_,?_,?_⟩
  · apply Vector.ext
    intro i hi
    have : (f.toList ++ (le32 s ++ (le16 p ++ le16 e)))[i]? = some f[i] := by
      rw [List.getElem?_append_left (by omega)]
      simp [hi]
    simp only [Vector.getElem_ofFn,List.getD_eq_getElem?_getD,Nat.add_comm 1 i,
      List.getElem?_cons_succ,this,Option.getD_some]
  · rw [List.drop_succ_cons]
    simp only [Nat.add_zero] at h129
    rw [h129]
    change UInt32.ofNat (ofLe (le32 s)) = s
    rw [ofLe_le32]
    simp
  · rw [List.drop_succ_cons,h133]
    change UInt16.ofNat (ofLe (le16 p)) = p
    rw [ofLe_le16]
    simp
  · rw [List.drop_succ_cons,h135]
    change UInt16.ofNat (ofLe (le16 e)) = e
    rw [ofLe_le16]
    simp

/-- A whole `CmdMsg` arrives as it was sent. -/
@[simp] theorem received_encode (msg : CmdMsg) : received msg.encode = msg := by
  rw [received,overlay_full (by simp),decode_encode]

end CmdMsg

/-- `struct DataMsg`: its 3000 bytes. The constructor clears them. -/
abbrev DataMsg := Vector UInt8 3000

namespace DataMsg

def new : DataMsg := Vector.replicate 3000 0

/-- A name that is too long loses its last bytes, so that a zero fits behind it. -/
def setData (src : Bytes) : DataMsg :=
  let copyLen := if src.length < dataBufLen then src.length else dataBufLen - 1
  Vector.ofFn fun i => (src.take copyLen).getD i 0

/-- A message that was just constructed, after `recvfrom` into it. -/
def received (datagram : Bytes) : DataMsg :=
  Vector.ofFn fun i => (overlay new.toList datagram).getD i 0

theorem toList_received (datagram : Bytes) :
    (received datagram).toList = overlay new.toList datagram := by
  have hlen : (overlay new.toList datagram).length = 3000 := by simp
  apply List.ext_getElem
  · simp
  · intro i h₁ h₂
    simp [received]

/-- A whole `DataMsg` arrives as it was sent. -/
@[simp] theorem received_toList (msg : DataMsg) : received msg.toList = msg := by
  have h : overlay new.toList msg.toList = msg.toList := overlay_full (by simp)
  apply Vector.ext
  intro i hi
  simp [received,h]

/-- A name that leaves room for a zero is read back. -/
theorem cString_received {name : Bytes} (beyond : Bytes) (hzero : 0 ∉ name)
    (hlen : name.length < dataBufLen) :
    cString ((received name).toList ++ beyond) = name := by
  have hnew : new.toList = List.replicate 3000 0 := by simp [new]
  rw [dataBufLen] at hlen
  obtain ⟨k,hk⟩ : ∃ k, 3000 - name.length = k + 1 := ⟨2999 - name.length,by omega⟩
  have hall : ∀ c ∈ name, (decide (c ≠ 0)) = true :=
    fun c hc => decide_eq_true fun (h : c = 0) => hzero (h ▸ hc)
  rw [toList_received,overlay,hnew,List.length_replicate,List.drop_replicate,hk,
    List.take_of_length_le (Nat.le_of_lt hlen),List.replicate_succ,List.append_assoc,cString,
    List.takeWhile_append_of_pos hall]
  simp

end DataMsg

end NetworkLab.Backup
