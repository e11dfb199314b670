import NetworkLab.Backup.Transfer
import NetworkLab.Backup.Client
set_option autoImplicit false

/-! A large file between the two loops: the client reads a piece and sends some of it, the
server receives in chunks of its own. -/

namespace NetworkLab.Backup
open Interaction

namespace Client

/-- The next piece that is read and offered to `send`. -/
def pieceSize (filesize bytesSent : Nat) : Nat := min 3000 (filesize - bytesSent)

/-- The rounds of `sendChunks`. -/
inductive Pieces (filesize : Nat) : Bytes → Nat → Trace → Bool → Prop where
  | done {buffer : Bytes} {bytesSent : Nat} : filesize ≤ bytesSent →
      Pieces filesize buffer bytesSent [] true
  | failed {buffer : Bytes} {bytesSent : Nat} (data : Upto (pieceSize filesize bytesSent)) :
      bytesSent < filesize →
      Pieces filesize buffer bytesSent
        [⟨.read (pieceSize filesize bytesSent),data⟩,
          ⟨.send ((overlay buffer data.val).take (pieceSize filesize bytesSent)),none⟩] false
  | sent {buffer : Bytes} {bytesSent : Nat} {tr : Trace} {ok : Bool}
      (data : Upto (pieceSize filesize bytesSent))
      (n : Taken ((overlay buffer data.val).take (pieceSize filesize bytesSent)).length) :
      bytesSent < filesize →
      Pieces filesize (overlay buffer data.val) (bytesSent + n.val) tr ok →
      Pieces filesize buffer bytesSent
        (⟨.read (pieceSize filesize bytesSent),data⟩ ::
          ⟨.send ((overlay buffer data.val).take (pieceSize filesize bytesSent)),some n⟩ :: tr) ok

/-- Each read of the file goes on where the last one ended. -/
def ReadsFrom : Bytes → Trace → Prop
  | _, [] => True
  | rest, ⟨.read size,data⟩ :: tr => data.val = rest.take size ∧ ReadsFrom (rest.drop size) tr
  | rest, _ :: tr => ReadsFrom rest tr

def takenOf : Event Res → Option Nat
  | ⟨.send _,some n⟩ => some n.val
  | _ => none

/-- What the calls of `send` returned. -/
def sendResults (tr : Trace) : List Nat := tr.filterMap takenOf

def streamedBy : Event Res → Bytes
  | ⟨.send data,some n⟩ => data.take n.val
  | _ => []

/-- The bytes that the calls of `send` took. -/
def streamed (tr : Trace) : Bytes := tr.flatMap streamedBy

/-- Results between 1 and what was offered, until the loop ends. -/
def LoopEnds (filesize : Nat) : Nat → List Nat → Prop
  | bytesSent, [] => filesize ≤ bytesSent
  | bytesSent, n :: ns => bytesSent < filesize ∧ 0 < n ∧ n ≤ pieceSize filesize bytesSent ∧
      LoopEnds filesize (bytesSent + n) ns

/-- Every `send` takes all that it is offered. -/
def AllTaken (filesize : Nat) : Nat → List Nat → Prop
  | _, [] => True
  | bytesSent, n :: ns => n = pieceSize filesize bytesSent ∧ AllTaken filesize (bytesSent + n) ns

section Loop
variable {filesize bytesSent : Nat} {buffer : Bytes} {tr : Trace} {m m' : Members} {ok : Bool}

theorem runs_sendChunks {fuel : Nat} (hfuel : filesize ≤ bytesSent + fuel) :
    Runs (sendChunks filesize fuel buffer bytesSent) m tr ok m' ↔
      Pieces filesize buffer bytesSent tr ok ∧ m' = m := by
  induction fuel generalizing buffer bytesSent tr with
  | zero =>
    have hle : filesize ≤ bytesSent := hfuel
    rw [sendChunks,runs_pure]
    constructor
    · rintro ⟨rfl,rfl,rfl⟩
      exact ⟨.done hle,rfl⟩
    · rintro ⟨h,rfl⟩
      cases h with
      | done => exact ⟨rfl,rfl,rfl⟩
      | failed data hlt => omega
      | sent data n hlt => omega
  | succ fuel ih =>
    rw [sendChunks]
    by_cases hlt : bytesSent < filesize
    · rw [if_pos hlt]
      constructor
      · intro h
        obtain ⟨data,tr₁,rfl,h₁⟩ := runs_ask_bind.mp h
        obtain ⟨n,tr₂,rfl,h₂⟩ := runs_ask_bind.mp h₁
        cases n with
        | none =>
          obtain ⟨rfl,rfl,rfl⟩ := runs_pure.mp h₂
          exact ⟨.failed data hlt,rfl⟩
        | some n =>
          obtain ⟨hp,rfl⟩ := (ih (by have := n.property; omega)).mp h₂
          exact ⟨.sent data n hlt hp,rfl⟩
      · rintro ⟨h,rfl⟩
        cases h with
        | done hle => omega
        | failed data _ =>
          exact runs_ask_bind.mpr ⟨data,_,rfl,runs_ask_bind.mpr ⟨none,_,rfl,runs_pure.mpr
            ⟨rfl,rfl,rfl⟩⟩⟩
        | sent data n _ hp =>
          exact runs_ask_bind.mpr ⟨data,_,rfl,runs_ask_bind.mpr ⟨some n,_,rfl,
            (ih (by have := n.property; omega)).mpr ⟨hp,rfl⟩⟩⟩
    · rw [if_neg hlt,runs_pure]
      constructor
      · rintro ⟨rfl,rfl,rfl⟩
        exact ⟨.done (Nat.le_of_not_lt hlt),rfl⟩
      · rintro ⟨h,rfl⟩
        cases h with
        | done => exact ⟨rfl,rfl,rfl⟩
        | failed data hlt' => exact absurd hlt' hlt
        | sent data n hlt' => exact absurd hlt' hlt

theorem overlay_take_full (buffer : Bytes) {data : Bytes} {n : Nat} (hlen : data.length = n)
    (h : n ≤ buffer.length) : (overlay buffer data).take n = data := by
  have hall : data.take buffer.length = data := List.take_of_length_le (by omega)
  rw [overlay,hall,← hlen]
  exact List.take_left

theorem readsFrom_piece {rest : Bytes} {size : Nat} {data : Upto size} {offered : Bytes}
    {r : Option (Taken offered.length)} :
    ReadsFrom rest (⟨.read size,data⟩ :: ⟨.send offered,r⟩ :: tr) ↔
      data.val = rest.take size ∧ ReadsFrom (rest.drop size) tr := Iff.rfl

theorem pieceSize_le : pieceSize filesize bytesSent ≤ 3000 := Nat.min_le_left _ _

/-- The bytes taken are as many as the loop counted. -/
theorem Pieces.length_streamed (h : Pieces filesize buffer bytesSent tr ok) (hok : ok = true)
    (hb : bytesSent ≤ filesize) (hbuf : buffer.length = 3000) :
    (streamed tr).length = filesize - bytesSent := by
  induction h with
  | done hle =>
    have : filesize - _ = 0 := Nat.sub_eq_zero_of_le hle
    rw [this]
    rfl
  | failed => cases hok
  | @sent buffer bytesSent tr ok data n hlt hp ih =>
    have hn := n.property.2
    have hoff := hn.trans (List.length_take_le _ _)
    have hk : pieceSize filesize bytesSent ≤ filesize - bytesSent := Nat.min_le_right _ _
    change (((overlay buffer data.val).take _).take n.val ++ streamed tr).length = _
    rw [List.length_append,List.length_take,Nat.min_eq_left hn,
      ih hok (by omega) (by rw [overlay_length,hbuf])]
    omega

/-- When every `send` takes all, the file goes over the connection as it is. -/
theorem Pieces.streamed_eq {file : Bytes} (h : Pieces filesize buffer bytesSent tr ok)
    (hok : ok = true) (hfile : file.length = filesize) (hbuf : buffer.length = 3000)
    (hread : ReadsFrom (file.drop bytesSent) tr)
    (hall : AllTaken filesize bytesSent (sendResults tr)) :
    streamed tr = file.drop bytesSent := by
  induction h with
  | done hle =>
    rw [List.drop_eq_nil_of_le (by omega)]
    rfl
  | failed => cases hok
  | @sent buffer bytesSent tr ok data n hlt hp ih =>
    obtain ⟨hdata,hrest⟩ := readsFrom_piece.mp hread
    obtain ⟨hn,hrestall⟩ : n.val = pieceSize filesize bytesSent ∧
      AllTaken filesize (bytesSent + n.val) (sendResults tr) := hall
    have hk : pieceSize filesize bytesSent ≤ 3000 := pieceSize_le
    have hlen : data.val.length = pieceSize filesize bytesSent := by
      rw [hdata,List.length_take,List.length_drop,hfile]
      exact Nat.min_eq_left (Nat.min_le_right _ _)
    have hpiece := overlay_take_full buffer hlen (by omega)
    rw [List.drop_drop,← hn] at hrest
    have hfirst : ((overlay buffer data.val).take (pieceSize filesize bytesSent)).take n.val =
        (file.drop bytesSent).take n.val := by
      rw [hn,List.take_take,Nat.min_self,hpiece,hdata]
    change ((overlay buffer data.val).take _).take n.val ++ streamed tr = _
    rw [ih hok (by rw [overlay_length,hbuf]) hrest hrestall,hfirst,← List.drop_drop,
      List.take_append_drop]

/-- Whatever the file holds, the loop can go this way. -/
theorem LoopEnds.pieces {ns : List Nat} (h : LoopEnds filesize bytesSent ns)
    (hbuf : buffer.length = 3000) (rest : Bytes) :
    ∃ tr, Pieces filesize buffer bytesSent tr true ∧ ReadsFrom rest tr ∧ sendResults tr = ns := by
  induction ns generalizing bytesSent buffer rest with
  | nil => exact ⟨[],.done h,trivial,rfl⟩
  | cons n ns ih =>
    obtain ⟨hlt,hpos,hle,hrest⟩ := h
    let data : Upto (pieceSize filesize bytesSent) :=
      ⟨rest.take (pieceSize filesize bytesSent),List.length_take_le _ _⟩
    have hbuf' : (overlay buffer data.val).length = 3000 := by rw [overlay_length,hbuf]
    have hoffered : ((overlay buffer data.val).take (pieceSize filesize bytesSent)).length =
        pieceSize filesize bytesSent := by
      rw [List.length_take,hbuf']
      exact Nat.min_eq_left pieceSize_le
    obtain ⟨tr,hp,hr,hs⟩ := ih hrest hbuf' (rest.drop (pieceSize filesize bytesSent))
    refine ⟨_,.sent data ⟨n,hpos,hle.trans hoffered.ge⟩ hlt hp,readsFrom_piece.mpr ⟨rfl,hr⟩,?_⟩
    change n :: sendResults tr = n :: ns
    rw [hs]

theorem overlay_head (data : Bytes) (hbuf : 0 < buffer.length) :
    (overlay buffer data)[0]? = if data = [] then buffer[0]? else data[0]? := by
  unfold overlay
  cases data with
  | nil => simp
  | cons b data =>
    obtain ⟨k,hk⟩ : ∃ k, buffer.length = k + 1 := ⟨buffer.length - 1,by omega⟩
    rw [hk]
    simp

/-- The first byte that is sent in a round: behind the end of the file the old one. -/
theorem Pieces.head_streamed {rest : Bytes} (h : Pieces filesize buffer bytesSent tr true)
    (hlt : bytesSent < filesize) (hbuf : buffer.length = 3000) (hread : ReadsFrom rest tr) :
    (streamed tr)[0]? = if rest = [] then buffer[0]? else rest[0]? := by
  cases h with
  | done hle => omega
  | sent data n _ hp =>
    obtain ⟨hdata,-⟩ := readsFrom_piece.mp hread
    have hpos : 0 < pieceSize filesize bytesSent := by
      unfold pieceSize
      omega
    have hhead := overlay_head data.val (show 0 < buffer.length by omega)
    have hnil : data.val = [] ↔ rest = [] := by
      rw [hdata,List.take_eq_nil_iff]
      exact or_iff_right (by omega)
    have hfirst : data.val[0]? = rest[0]? := by
      rw [hdata,List.getElem?_take_of_lt hpos]
    change (((overlay buffer data.val).take _).take n.val ++ _)[0]? = _
    have htaken : (((overlay buffer data.val).take (pieceSize filesize bytesSent)).take
        n.val)[0]? = (overlay buffer data.val)[0]? := by
      rw [List.getElem?_take_of_lt n.property.1,List.getElem?_take_of_lt hpos]
    rw [List.getElem?_append_left,htaken,hhead]
    · simp only [hnil,hfirst]
    · rw [List.length_take,Nat.min_eq_left n.property.2]
      exact n.property.1

/-- One round of a loop that ends. -/
theorem Pieces.round {rest : Bytes} {n : Nat} {ns : List Nat}
    (h : Pieces filesize buffer bytesSent tr true) (hread : ReadsFrom rest tr)
    (hs : sendResults tr = n :: ns) :
    ∃ tr', Pieces filesize (overlay buffer (rest.take (pieceSize filesize bytesSent)))
        (bytesSent + n) tr' true ∧
      ReadsFrom (rest.drop (pieceSize filesize bytesSent)) tr' ∧ sendResults tr' = ns ∧
      ∃ piece : Bytes, piece.length = n ∧ streamed tr = piece ++ streamed tr' := by
  cases h with
  | done => cases hs
  | @sent _ _ tr _ data taken hlt hp =>
    obtain ⟨hdata,hrest⟩ := readsFrom_piece.mp hread
    obtain ⟨rfl,rfl⟩ : taken.val = n ∧ sendResults tr = ns := List.cons.inj hs
    obtain ⟨data,hdatalen⟩ := data
    obtain rfl : data = rest.take (pieceSize filesize bytesSent) := hdata
    refine ⟨tr,hp,hrest,rfl,_,?_,rfl⟩
    exact List.length_take.trans (Nat.min_eq_left taken.property.2)

/-- A byte that a short `send` leaves out: another byte of the file goes in its place. -/
theorem LoopEnds.skips {ns : List Nat} (h : LoopEnds filesize bytesSent ns)
    (hno : ¬AllTaken filesize bytesSent ns) :
    ∃ j i, i ≠ j ∧ bytesSent ≤ j ∧ j < filesize ∧
      ∀ {file buffer : Bytes} {tr : Trace}, file.length = filesize → buffer.length = 3000 →
        Pieces filesize buffer bytesSent tr true → ReadsFrom (file.drop bytesSent) tr →
        sendResults tr = ns → (streamed tr)[j - bytesSent]? = file[i]? := by
  induction ns generalizing bytesSent with
  | nil => exact absurd trivial hno
  | cons n ns ih =>
    obtain ⟨hlt,hpos,hle,hrest⟩ := h
    by_cases hn : n = pieceSize filesize bytesSent
    · obtain ⟨j,i,hij,hbj,hj,hall⟩ := ih hrest fun h => hno ⟨hn,h⟩
      refine ⟨j,i,hij,by omega,hj,fun {file buffer tr} hfile hbuf hp hread hs => ?_⟩
      obtain ⟨tr',hp',hread',hs',piece,hlen,hstr⟩ := hp.round hread hs
      rw [List.drop_drop,← hn] at hread'
      have hrec := hall hfile (by rw [overlay_length,hbuf]) hp' hread' hs'
      rw [hstr,List.getElem?_append_right (by omega),hlen,← hrec]
      congr 1
      omega
    · have hk : pieceSize filesize bytesSent ≤ filesize - bytesSent := Nat.min_le_right _ _
      refine ⟨bytesSent + n,if filesize ≤ bytesSent + pieceSize filesize bytesSent then bytesSent
        else bytesSent + pieceSize filesize bytesSent,by split <;> omega,by omega,by omega,?_⟩
      intro file buffer tr hfile hbuf hp hread hs
      obtain ⟨tr',hp',hread',hs',piece,hlen,hstr⟩ := hp.round hread hs
      rw [List.drop_drop] at hread'
      rw [hstr,List.getElem?_append_right (by omega),hlen,Nat.add_sub_cancel_left,Nat.sub_self,
        hp'.head_streamed (by omega) (by rw [overlay_length,hbuf]) hread']
      by_cases hend : filesize ≤ bytesSent + pieceSize filesize bytesSent
      · have hnil : (file.drop bytesSent).take (pieceSize filesize bytesSent) ≠ [] := by
          rw [Ne,List.take_eq_nil_iff,List.drop_eq_nil_iff]
          omega
        rw [if_pos (List.drop_eq_nil_of_le (by omega)),if_pos hend,overlay_head _ (by omega),
          if_neg hnil,List.getElem?_take_of_lt (by omega),List.getElem?_drop,Nat.add_zero]
      · rw [if_neg (by rw [List.drop_eq_nil_iff]; omega),if_neg hend,List.getElem?_drop,
          Nat.add_zero]

end Loop

/-! The calls around the loop. -/

theorem sendResults_append (tr tr' : Trace) :
    sendResults (tr ++ tr') = sendResults tr ++ sendResults tr' := List.filterMap_append

theorem streamed_append (tr tr' : Trace) : streamed (tr ++ tr') = streamed tr ++ streamed tr' :=
  List.flatMap_append

section Whole
variable {filesize : Nat} {m m' : Members} {tr : Trace} {e : ErrorCode} {filepath : Bytes}
variable {tcpPort : UInt16}

theorem readsFrom_snoc {rest : Bytes} {size : Nat} {r : Option (Addr × Bytes)} :
    ReadsFrom rest (tr ++ [⟨.recvfrom size,r⟩]) ↔ ReadsFrom rest tr := by
  induction tr generalizing rest with
  | nil => exact Iff.rfl
  | cons ev tr ih =>
    obtain ⟨o,a⟩ := ev
    cases o with
    | read size => exact and_congr Iff.rfl ih
    | _ => exact ih

/-- The connection stands, the file is open, and there is a buffer. -/
def ready (filepath : Bytes) (tcpPort : UInt16) (buffer : Res (.uninitialized 3000)) : Trace :=
  [⟨.socket,true⟩,⟨.connect tcpPort,true⟩,⟨.ifstream filepath,true⟩,
    ⟨.uninitialized 3000,buffer⟩]

theorem Pieces.not_recvfrom {bytesSent size : Nat} {buffer : Bytes} {ok : Bool}
    {r : Option (Addr × Bytes)} (h : Pieces filesize buffer bytesSent tr ok) :
    ⟨.recvfrom size,r⟩ ∉ tr := by
  induction h with
  | done => simp
  | failed => simp
  | sent data n hlt hp ih => simpa using ih

theorem runs_receiveAck (h : Runs receiveAck m tr e m') : ∃ r, tr = [⟨.recvfrom 137,r⟩] := by
  have hend : ∀ {ackMsg : CmdMsg} {m : Members} {tr : Trace},
      Runs (if ackMsg.getCommand = some .ACK ∧ ackMsg.error = 0 then (pure .SUCCESS : Handler _)
        else pure .FILE_WRITE_ERROR) m tr e m' → tr = [] := by
    intro ackMsg m tr h
    split at h
    · exact (runs_pure.mp h).1
    · exact (runs_pure.mp h).1
  unfold receiveAck at h
  rcases runs_receiveResponse_bind.mp h with ⟨tr₁,rfl,h₁⟩ | ⟨sender,d,tr₁,rfl,h₁⟩
  · have h₁ : Runs (pure ErrorCode.TIMEOUT : Handler _) m tr₁ e m' := h₁
    obtain ⟨rfl,-,-⟩ := runs_pure.mp h₁
    exact ⟨none,rfl⟩
  · refine ⟨some (sender,d),?_⟩
    by_cases hd : d = []
    · rw [if_pos hd] at h₁
      have h₁ : Runs (pure ErrorCode.TIMEOUT : Handler _) _ tr₁ e m' := h₁
      rw [(runs_pure.mp h₁).1]
    · rw [if_neg hd] at h₁
      dsimp only at h₁
      rw [if_neg (by simp)] at h₁
      rw [hend h₁]

/-- The acknowledgement is waited for only when the loop has come to its end. -/
theorem runs_sendLargeFile {r : Option (Addr × Bytes)}
    (h : Runs (sendLargeFile filepath filesize tcpPort) m tr e m')
    (hend : ⟨.recvfrom 137,r⟩ ∈ tr) :
    ∃ (buffer : Res (.uninitialized 3000)) (trl : Trace) (r' : Option (Addr × Bytes)),
      tr = ready filepath tcpPort buffer ++ trl ++ [⟨.recvfrom 137,r'⟩] ∧
      Pieces filesize buffer.val 0 trl true := by
  unfold sendLargeFile at h
  obtain ⟨made,tr₁,rfl,h₁⟩ := runs_ask_bind.mp h
  cases made with
  | false =>
    obtain ⟨rfl,-,-⟩ := runs_pure.mp h₁
    simp at hend
  | true =>
  obtain ⟨connected,tr₂,rfl,h₂⟩ := runs_ask_bind.mp h₁
  cases connected with
  | false =>
    obtain ⟨rfl,-,-⟩ := runs_pure.mp h₂
    simp at hend
  | true =>
  obtain ⟨opened,tr₃,rfl,h₃⟩ := runs_ask_bind.mp h₂
  cases opened with
  | false =>
    obtain ⟨rfl,-,-⟩ := runs_pure.mp h₃
    simp at hend
  | true =>
  obtain ⟨buffer,tr₄,rfl,h₄⟩ := runs_ask_bind.mp h₃
  obtain ⟨ok,m₁,trl,tra,hl,h₅,rfl⟩ := runs_bind.mp h₄
  obtain ⟨hp,rfl⟩ := (runs_sendChunks (Nat.le_of_eq (Nat.zero_add _).symm)).mp hl
  cases ok with
  | false =>
    obtain ⟨rfl,-,-⟩ := runs_pure.mp h₅
    simp [hp.not_recvfrom] at hend
  | true =>
    obtain ⟨r',rfl⟩ := runs_receiveAck h₅
    exact ⟨buffer,trl,r',rfl,hp⟩

theorem sendResults_whole (buffer : Res (.uninitialized 3000)) (trl : Trace)
    (r : Option (Addr × Bytes)) :
    sendResults (ready filepath tcpPort buffer ++ trl ++ [⟨.recvfrom 137,r⟩]) = sendResults trl := by
  rw [sendResults_append,sendResults_append]
  exact List.append_nil _

theorem streamed_whole (buffer : Res (.uninitialized 3000)) (trl : Trace)
    (r : Option (Addr × Bytes)) :
    streamed (ready filepath tcpPort buffer ++ trl ++ [⟨.recvfrom 137,r⟩]) = streamed trl := by
  rw [streamed_append,streamed_append]
  exact List.append_nil _

theorem sendLargeFile_runs {buffer : Res (.uninitialized 3000)} {trl : Trace}
    (hp : Pieces filesize buffer.val 0 trl true) (m : Members) :
    Runs (sendLargeFile filepath filesize tcpPort) m
      (ready filepath tcpPort buffer ++ trl ++ [⟨.recvfrom 137,none⟩]) .TIMEOUT m := by
  unfold sendLargeFile
  refine runs_ask_bind.mpr ⟨true,_,rfl,?_⟩
  refine runs_ask_bind.mpr ⟨true,_,rfl,?_⟩
  refine runs_ask_bind.mpr ⟨true,_,rfl,?_⟩
  refine runs_ask_bind.mpr ⟨buffer,_,rfl,?_⟩
  refine runs_bind.mpr ⟨true,m,trl,_,(runs_sendChunks (Nat.le_of_eq (Nat.zero_add _).symm)).mpr
    ⟨hp,rfl⟩,?_,rfl⟩
  refine runs_receiveResponse_bind.mpr (Or.inl ⟨[],rfl,?_⟩)
  exact runs_pure.mpr ⟨rfl,rfl,rfl⟩

end Whole

end Client

def WholeWrite : Event Res → Prop
  | ⟨.write _ data,stored⟩ => stored.val = data.length
  | _ => True

/-- No write is short. -/
def WritesAll (tr : Trace) : Prop := ∀ ev ∈ tr, WholeWrite ev

namespace Server

section Loop
variable {filepath : Bytes} {filesize total n : Nat} {tr : Trace} {good : Bool} {m m' : Members}
variable {e : ErrorCode}

theorem Chunks.length_content (h : Chunks filepath filesize good total tr n) :
    total + (content tr).length = n := by
  induction h with
  | full _ => rfl
  | closed _ => rfl
  | @stored total n tr chunk stored hlt hc ih =>
    change total + (chunk.val ++ content tr).length = n
    rw [List.length_append]
    omega
  | @dropped total n tr chunk hlt hc ih =>
    change total + (chunk.val ++ content tr).length = n
    rw [List.length_append]
    omega

/-- What came is in the file exactly when no write was short. -/
theorem Chunks.stored_iff (h : Chunks filepath filesize good total tr n) (hgood : good = true) :
    storedBytes tr = content tr ↔ WritesAll tr := by
  induction h with
  | full _ => simp [WritesAll,storedBytes,content]
  | closed _ => simp [WritesAll,WholeWrite,storedBytes,content,storedBy,contentOf]
  | @stored total n tr chunk stored hlt hc ih =>
    change chunk.val.take stored.val ++ storedBytes tr = chunk.val ++ content tr ↔ _
    have hcons : WritesAll (⟨.recv 3000,some chunk⟩ :: ⟨.write filepath chunk.val,stored⟩ :: tr) ↔
        stored.val = chunk.val.length ∧ WritesAll tr := by
      unfold WritesAll
      rw [List.forall_mem_cons,List.forall_mem_cons]
      exact and_iff_right trivial
    rw [hcons]
    by_cases hall : stored.val = chunk.val.length
    · rw [hall,List.take_length,List.append_cancel_left_eq,ih (decide_eq_true hall)]
      exact (and_iff_right rfl).symm
    · rw [hc.dropped_all (decide_eq_false hall),List.append_nil]
      refine iff_of_false (fun he => hall ?_) fun h => hall h.1
      have hlen := congrArg List.length he
      have hstored := stored.isLt
      rw [List.length_take,List.length_append] at hlen
      omega
  | dropped => cases hgood

theorem Chunks.runs (h : Chunks filepath filesize good total tr n) {fuel : Nat}
    (hfuel : filesize ≤ total + fuel) (m : Members) :
    Runs (receiveChunks filepath filesize fuel good total) m tr n m := by
  induction h generalizing fuel with
  | full hle =>
    cases fuel with
    | zero => exact runs_pure.mpr ⟨rfl,rfl,rfl⟩
    | succ fuel =>
      rw [receiveChunks,if_neg (Nat.not_lt.mpr hle)]
      exact runs_pure.mpr ⟨rfl,rfl,rfl⟩
  | closed hlt =>
    obtain ⟨fuel,rfl⟩ : ∃ k, fuel = k + 1 := ⟨fuel - 1,by omega⟩
    rw [receiveChunks,if_pos hlt]
    exact runs_ask_bind.mpr ⟨none,[],rfl,runs_pure.mpr ⟨rfl,rfl,rfl⟩⟩
  | stored chunk stored hlt _ ih =>
    obtain ⟨fuel,rfl⟩ : ∃ k, fuel = k + 1 := ⟨fuel - 1,by omega⟩
    have hpos := chunk.property.1
    rw [receiveChunks,if_pos hlt]
    refine runs_ask_bind.mpr ⟨some chunk,_,rfl,runs_writeStream_bind.mpr (Or.inl ⟨rfl,stored,_,
      rfl,ih (by omega)⟩)⟩
  | dropped chunk hlt _ ih =>
    obtain ⟨fuel,rfl⟩ : ∃ k, fuel = k + 1 := ⟨fuel - 1,by omega⟩
    have hpos := chunk.property.1
    rw [receiveChunks,if_pos hlt]
    exact runs_ask_bind.mpr ⟨some chunk,_,rfl,runs_writeStream_bind.mpr (Or.inr ⟨rfl,
      ih (by omega)⟩)⟩

/-- Any bytes can come, one by one. -/
theorem chunks_of_stream (filepath : Bytes) (stream : Bytes) (h : total + stream.length = filesize) :
    ∃ tr, Chunks filepath filesize true total tr filesize ∧ content tr = stream ∧
      WritesAll tr := by
  induction stream generalizing total with
  | nil =>
    obtain rfl : total = filesize := h
    exact ⟨[],.full (Nat.le_refl _),rfl,fun _ hev => by cases hev⟩
  | cons b stream ih =>
    rw [List.length_cons] at h
    obtain ⟨tr,hc,hcontent,hw⟩ := ih (show total + 1 + stream.length = filesize by omega)
    let chunk : Chunk 3000 := ⟨[b],by simp⟩
    refine ⟨_,.stored chunk 1 (by omega) hc,congrArg (b :: ·) hcontent,?_⟩
    exact List.forall_mem_cons.mpr ⟨trivial,List.forall_mem_cons.mpr ⟨rfl,hw⟩⟩

theorem Chunks.not_metric {x : Metric} (h : Chunks filepath filesize good total tr n) :
    ⟨.metric x,()⟩ ∉ tr := by
  induction h with
  | full _ => simp
  | closed _ => simp
  | stored chunk stored _ _ ih => simpa using ih
  | dropped chunk _ _ ih => simpa using ih

/-- What a large file has, when as much came as was announced. -/
theorem LargeFile.complete (h : LargeFile filepath filesize m tr e m')
    (hall : ⟨.metric (.recordBytesReceived filesize),()⟩ ∈ tr) :
    (content tr).length = filesize ∧ Fills filepath tr ∧
      (storedBytes tr = content tr ↔ WritesAll tr) := by
  have hout := h.outcome
  cases h with
  | @finished trc total ok hc =>
    have hfills := hout.resolve_left fun hq => by
      have hopen := hq ⟨.ofstream filepath,true⟩ (by simp)
      cases hopen
    have htotal : total = filesize := by
      simp [listening,sent,counted,hc.not_metric] at hall
      exact hall.symm
    have hparts : ∀ pre post : Trace, storedBytes pre = [] → storedBytes post = [] →
        content pre = [] → content post = [] → WritesAll pre → WritesAll post →
        (content (pre ++ trc ++ post)).length = filesize ∧
          (storedBytes (pre ++ trc ++ post) = content (pre ++ trc ++ post) ↔
            WritesAll (pre ++ trc ++ post)) := by
      intro pre post h₁ h₂ h₃ h₄ h₅ h₆
      have hw : WritesAll (pre ++ trc ++ post) ↔ WritesAll trc := by
        unfold WritesAll
        rw [List.forall_mem_append,List.forall_mem_append]
        exact ⟨fun h => h.1.2,fun h => ⟨⟨h₅,h⟩,h₆⟩⟩
      simp only [storedBytes_append,content_append,h₁,h₂,h₃,h₄,List.nil_append,List.append_nil,hw]
      refine ⟨?_,hc.stored_iff rfl⟩
      rw [← htotal,← hc.length_content,Nat.zero_add]
    have hrun := hparts (listening m ++ [sent m (portAck m).encode true,⟨.accept,true⟩,
      ⟨.ofstream filepath,true⟩]) (counted total ++ [sent m (portAck m).encode ok])
      rfl rfl rfl rfl (by simp [WritesAll,WholeWrite,listening,sent])
      (by simp [WritesAll,WholeWrite,counted,sent])
    simp only [List.append_assoc] at hrun hfills ⊢
    exact ⟨hrun.1,hfills,hrun.2⟩
  | _ => simp [listening,sent] at hall

theorem receiveLargeFile_runs (hc : Chunks filepath filesize true 0 tr n) (m : Members) :
    Runs (receiveLargeFile filepath filesize) m (listening m ++
      [sent m (portAck m).encode true,⟨.accept,true⟩,⟨.ofstream filepath,true⟩] ++ tr ++
      counted n ++ [sent m (portAck m).encode true]) .SUCCESS
      { m with currentTcpPort := m.currentTcpPort + 1 } := by
  unfold receiveLargeFile sendResponse listening counted
  simp only [List.append_assoc,List.cons_append,List.nil_append]
  refine runs_ask_bind.mpr ⟨true,_,rfl,?_⟩
  refine runs_get_bind.mpr (runs_ask_bind.mpr ⟨true,_,rfl,?_⟩)
  refine runs_ask_bind.mpr ⟨true,_,rfl,?_⟩
  refine runs_sendto_bind.mpr ⟨true,_,rfl,?_⟩
  refine runs_ask_bind.mpr ⟨true,_,rfl,?_⟩
  refine runs_ask_bind.mpr ⟨true,_,rfl,?_⟩
  refine runs_bind.mpr ⟨n,m,tr,_,hc.runs (Nat.le_of_eq (Nat.zero_add _).symm) m,?_,rfl⟩
  refine runs_ask_bind.mpr ⟨(),_,rfl,runs_ask_bind.mpr ⟨(),_,rfl,runs_modify_bind.mpr ?_⟩⟩
  exact runs_sendto.mpr ⟨true,rfl,rfl,rfl⟩

end Loop

end Server

/-- The client sends `file`, its loop ends, and the server receives as many bytes as were
announced. The connection brings the bytes that were sent in their order. -/
inductive Transferred (filename filepath file : Bytes) : Trace → Trace → Prop where
  | transferred {response : CmdMsg} {mc mc' : Client.Members} {ms ms' : Server.Members}
      {trc trs : Trace} {ec es : ErrorCode} {r : Option (Addr × Bytes)} :
      Runs (Client.sendFile filename file.length response) mc trc ec mc' →
      Runs (Server.receiveFile filepath (UInt32.ofNat file.length).toNat) ms trs es ms' →
      Client.ReadsFrom file trc → content trs <+: Client.streamed trc →
      ⟨.recvfrom 137,r⟩ ∈ trc →
      ⟨.metric (.recordBytesReceived (UInt32.ofNat file.length).toNat),()⟩ ∈ trs →
      Transferred filename filepath file trc trs

section Transferred
variable {F : Type} [DecidableEq F] {resolve : Bytes → F} {files : Files F}
variable {filename filepath file : Bytes} {filesize : Nat} {results : List Nat} {trc trs : Trace}

theorem announced_size (hsize : filesize < 2 ^ 32) : (UInt32.ofNat filesize).toNat = filesize := by
  rw [UInt32.toNat_ofNat']
  exact Nat.mod_eq_of_lt hsize

/-- The server gets exactly what the client has sent. -/
theorem Transferred.parts (h : Transferred filename filepath file trc trs)
    (hlarge : dataBufLen < file.length) (hsize : file.length < 2 ^ 32) :
    ∃ (buffer : Bytes) (trl : Trace), buffer.length = 3000 ∧
      Client.Pieces file.length buffer 0 trl true ∧ Client.ReadsFrom file trl ∧
      Client.sendResults trc = Client.sendResults trl ∧ content trs = Client.streamed trl ∧
      Fills filepath trs ∧ storedBytes trs <+: content trs ∧
      (storedBytes trs = content trs ↔ WritesAll trs) := by
  cases h with
  | transferred hc hs hread hstream hend hall =>
    rw [announced_size hsize] at hs hall
    rw [Client.sendFile,if_pos hlarge] at hc
    rw [Server.receiveFile,if_neg (Nat.not_le.mpr hlarge)] at hs
    obtain ⟨buffer,trl,r',rfl,hp⟩ := Client.runs_sendLargeFile hc hend
    have hrun := Server.runs_receiveLargeFile hs
    obtain ⟨hlen,hfills,hiff⟩ := hrun.complete hall
    rw [Client.streamed_whole] at hstream
    refine ⟨buffer.val,trl,buffer.property,hp,Client.readsFrom_snoc.mp hread,
      Client.sendResults_whole _ _ _,?_,hfills,hrun.stored_prefix,hiff⟩
    refine hstream.eq_of_length ?_
    rw [hlen,hp.length_streamed rfl (Nat.zero_le _) buffer.property,Nat.sub_zero]

/-- Any file can be sent with any results of `send`, and arrive. -/
theorem transferred_of_results (filename filepath : Bytes) (hlarge : dataBufLen < file.length)
    (hsize : file.length < 2 ^ 32) (hends : Client.LoopEnds file.length 0 results) :
    ∃ trc trs, Transferred filename filepath file trc trs ∧ Client.sendResults trc = results ∧
      WritesAll trs := by
  let buffer : Res (.uninitialized 3000) := ⟨List.replicate 3000 0,List.length_replicate⟩
  obtain ⟨trl,hp,hread,hres⟩ := hends.pieces buffer.property file
  have hlen := hp.length_streamed rfl (Nat.zero_le _) buffer.property
  obtain ⟨tr,hc,hcontent,hw⟩ := Server.chunks_of_stream filepath (Client.streamed trl)
    (show 0 + _ = file.length by omega)
  have m : Client.Members := ⟨⟨0,0⟩,[]⟩
  have ms : Server.Members := ⟨⟨0,0⟩,0,false,.WAITING⟩
  have hclient : Runs (Client.sendFile filename file.length .new) m
      (Client.ready filename CmdMsg.new.size.toUInt16 buffer ++ trl ++ [⟨.recvfrom 137,none⟩])
      .TIMEOUT m := by
    rw [Client.sendFile,if_pos hlarge]
    exact Client.sendLargeFile_runs hp m
  have hserver : Runs (Server.receiveFile filepath (UInt32.ofNat file.length).toNat) ms
      (Server.listening ms ++ [Server.sent ms (Server.portAck ms).encode true,⟨.accept,true⟩,
        ⟨.ofstream filepath,true⟩] ++ tr ++ Server.counted file.length ++
        [Server.sent ms (Server.portAck ms).encode true]) .SUCCESS
      { ms with currentTcpPort := ms.currentTcpPort + 1 } := by
    rw [announced_size hsize,Server.receiveFile,if_neg (Nat.not_le.mpr hlarge)]
    exact Server.receiveLargeFile_runs hc ms
  refine ⟨_,_,.transferred (r := none) hclient hserver (Client.readsFrom_snoc.mpr hread) ?_ ?_ ?_,
    (Client.sendResults_whole _ _ _).trans hres,?_⟩
  · rw [Client.streamed_whole,← hcontent]
    have hquiet : ∀ {pre post : Trace}, content pre = [] → content post = [] →
        content (pre ++ tr ++ post) = content tr := by
      intro pre post h₁ h₂
      rw [content_append,content_append,h₁,h₂,List.append_nil,List.nil_append]
    rw [List.append_assoc,hquiet rfl rfl]
  · simp
  · rw [announced_size hsize]
    simp [Server.counted]
  · unfold WritesAll at hw ⊢
    simp only [List.forall_mem_append]
    exact ⟨⟨⟨by simp [WholeWrite,Server.listening,Server.sent],hw⟩,
      by simp [WholeWrite,Server.counted]⟩,by simp [WholeWrite,Server.sent]⟩

/-- The file on the server is what was written. -/
theorem Transferred.filesAfter (h : Transferred filename filepath file trc trs)
    (hlarge : dataBufLen < file.length) (hsize : file.length < 2 ^ 32) :
    filesAfter resolve files trs (resolve filepath) = some (storedBytes trs) := by
  obtain ⟨buffer,trl,-,-,-,-,-,hfills,-,-⟩ := h.parts hlarge hsize
  rw [hfills.filesAfter,Function.update_self]

/-- After a short `send` some file does not arrive as it is. -/
theorem altered_of_short (filename filepath : Bytes) (hlarge : dataBufLen < filesize)
    (hsize : filesize < 2 ^ 32) (hends : Client.LoopEnds filesize 0 results)
    (hno : ¬Client.AllTaken filesize 0 results) :
    ∃ file trc trs, file.length = filesize ∧ Transferred filename filepath file trc trs ∧
      Client.sendResults trc = results ∧ WritesAll trs ∧ storedBytes trs ≠ file := by
  obtain ⟨j,i,hij,-,hj,hskip⟩ := hends.skips hno
  -- the byte that is left out differs from all others
  let file : Bytes := (List.range filesize).map fun x => if x = j then 1 else 0
  have hlen : file.length = filesize := by simp [file]
  obtain ⟨trc,trs,h,hres,hw⟩ := transferred_of_results filename filepath
    (hlen ▸ hlarge) (hlen ▸ hsize) (hlen ▸ hends)
  refine ⟨file,trc,trs,hlen,h,hres,hw,fun hfile => ?_⟩
  obtain ⟨buffer,trl,hbuf,hp,hread,hres',hcontent,-,-,hiff⟩ := h.parts (hlen ▸ hlarge)
    (hlen ▸ hsize)
  rw [hiff.mpr hw,hcontent] at hfile
  have hbyte := hskip hlen hbuf (hlen ▸ hp) hread (hres'.symm.trans hres)
  rw [hfile] at hbyte
  simp [file,hj] at hbyte
  obtain ⟨_,hi⟩ := List.getElem?_eq_some_iff.mp hbyte
  rw [List.getElem_range] at hi
  exact hij hi

/-- A large file arrives as it is for every content, exactly when each `send` takes all
that it is offered; and only if the server writes all that it receives. -/
theorem large_transfer_intact (hlarge : dataBufLen < filesize) (hsize : filesize < 2 ^ 32)
    (hends : Client.LoopEnds filesize 0 results) :
    ((∀ file trc trs, file.length = filesize → Transferred filename filepath file trc trs →
        Client.sendResults trc = results → WritesAll trs →
        filesAfter resolve files trs (resolve filepath) = some file) ↔
      Client.AllTaken filesize 0 results) ∧
    ∀ file trc trs, file.length = filesize → Transferred filename filepath file trc trs →
      ¬WritesAll trs → filesAfter resolve files trs (resolve filepath) ≠ some file := by
  refine ⟨⟨fun hall => ?_,fun htaken file trc trs hlen h hres hw => ?_⟩,
    fun file trc trs hlen h hw he => ?_⟩
  · by_contra hno
    obtain ⟨file,trc,trs,hlen,h,hres,hw,hne⟩ := altered_of_short filename filepath hlarge
      hsize hends hno
    have hfile := hall file trc trs hlen h hres hw
    rw [h.filesAfter (hlen ▸ hlarge) (hlen ▸ hsize)] at hfile
    exact hne (Option.some.inj hfile)
  · obtain ⟨buffer,trl,hbuf,hp,hread,hres',hcontent,-,-,hiff⟩ := h.parts (hlen ▸ hlarge)
      (hlen ▸ hsize)
    have htaken' : Client.AllTaken file.length 0 (Client.sendResults trl) := by
      rw [← hres',hres,hlen]
      exact htaken
    have hstr := hp.streamed_eq rfl rfl hbuf hread htaken'
    rw [h.filesAfter (hlen ▸ hlarge) (hlen ▸ hsize),hiff.mpr hw,hcontent,hstr]
    rfl
  · obtain ⟨buffer,trl,hbuf,hp,-,-,hcontent,-,hfront,hiff⟩ := h.parts (hlen ▸ hlarge)
      (hlen ▸ hsize)
    have hstr := hp.length_streamed rfl (Nat.zero_le _) hbuf
    rw [h.filesAfter (hlen ▸ hlarge) (hlen ▸ hsize)] at he
    refine hw (hiff.mp (hfront.eq_of_length ?_))
    rw [Option.some.inj he,hcontent,hstr,Nat.sub_zero]

/-- With whole sends a file of 3001 bytes arrives. -/
theorem large_transfer_intact_whole : ∃ trc trs,
    Transferred [97] [98] (List.replicate 3001 1) trc trs ∧
    Client.sendResults trc = [3000,1] ∧ WritesAll trs ∧
    Backup.filesAfter id (fun _ => none : Files Bytes) trs [98] =
      some (List.replicate 3001 1) := by
  have hends : Client.LoopEnds 3001 0 [3000,1] :=
    ⟨by decide,by decide,by decide,by decide,by decide,by decide,Nat.le_refl _⟩
  have hlen : (List.replicate 3001 (1 : UInt8)).length = 3001 := List.length_replicate
  obtain ⟨trc,trs,h,hres,hw⟩ := transferred_of_results [97] [98]
    (show dataBufLen < (List.replicate 3001 (1 : UInt8)).length by rw [hlen]; decide)
    (by rw [hlen]; decide) (hlen.symm ▸ hends)
  have hall := (@large_transfer_intact Bytes _ id (fun _ => none) [97] [98] _ _ (by decide)
    (by decide) hends).1.mpr ⟨rfl,rfl,trivial⟩
  exact ⟨trc,trs,h,hres,hw,hall _ trc trs hlen h hres hw⟩

end Transferred

/-- The first `send` takes all but one byte of its piece. -/
theorem not_large_transfer_intact_always :
    ¬∀ (filename filepath file : Bytes) (trc trs : Trace), dataBufLen < file.length →
      file.length < 2 ^ 32 → Transferred filename filepath file trc trs → WritesAll trs →
        filesAfter id (fun _ => none : Files Bytes) trs filepath = some file := by
  intro hall
  have hends : Client.LoopEnds 3001 0 [2999,2] :=
    ⟨by decide,by decide,by decide,by decide,by decide,by decide,Nat.le_refl _⟩
  have hno : ¬Client.AllTaken 3001 0 [2999,2] := fun h => absurd h.1 (by decide)
  obtain ⟨file,trc,trs,hlen,h,-,hw,hne⟩ := altered_of_short [97] [98] (by decide)
    (by decide) hends hno
  have hlarge : dataBufLen < file.length := by rw [hlen]; decide
  have hsize : file.length < 2 ^ 32 := by rw [hlen]; decide
  have hfile := hall [97] [98] file trc trs hlarge hsize h hw
  rw [show ([98] : Bytes) = id [98] from rfl,h.filesAfter hlarge hsize] at hfile
  exact hne (Option.some.inj hfile)

end NetworkLab.Backup
