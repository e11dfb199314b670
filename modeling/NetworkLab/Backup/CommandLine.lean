import NetworkLab.Backup.Client
import NetworkLab.Backup.Datagrams
import NetworkLab.Backup.Validator
import NetworkLab.Backup.WireNames
import Mathlib.Data.List.DropRight
set_option autoImplicit false

/-! The command line of the client: which file a typed name addresses. -/

namespace NetworkLab.Backup
open Interaction

/-- Space, tab, line feed, vertical tab, form feed, carriage return. -/
def isSpace (c : UInt8) : Bool := decide (c = 32 ∨ 9 ≤ c ∧ c ≤ 13)

def trim (str : Bytes) : Bytes := (str.dropWhile isSpace).rdropWhile isSpace

/-- What `stream >> word` reads, and what it leaves. -/
def nextWord (stream : Bytes) : Bytes × Bytes := (stream.dropWhile isSpace).span fun c => !isSpace c

namespace Client

structure ParsedCommand where
  command : Bytes
  arg1 : Bytes
  arg2 : Bytes
  deriving DecidableEq, Repr

/-- The rest of the line is dropped. -/
def parseCommand (input : Bytes) : ParsedCommand :=
  let (command,rest) := nextWord input
  let (arg1,rest) := nextWord rest
  { command := toLower command, arg1 := arg1, arg2 := (nextWord rest).1 }

inductive ClientState where
  | WAITING | PROCESS_LS | PROCESS_SEND | PROCESS_GET | PROCESS_REMOVE | PROCESS_RENAME | SHUTDOWN
  | QUIT
  deriving DecidableEq, Repr

/-- The handler runs in `state`, which it does not change. -/
def inState (state : ClientState) (handler : Handler ErrorCode) :
    Handler (ClientState × ErrorCode) := do
  let result ← handler
  pure (state,result)

/-- With the state that is left. -/
def executeCommand (config : ClientConfig) (state : ClientState) (input : Bytes) :
    Handler (ClientState × ErrorCode) :=
  let parsed := parseCommand input
  if parsed.command = ascii ['l','s'] then inState .PROCESS_LS handleLs
  else if parsed.command = ascii ['s','e','n','d'] then
    if parsed.arg1 = [] then pure (state,.INVALID_ARGUMENT)
    else inState .PROCESS_SEND (handleSend parsed.arg1)
  else if parsed.command = ascii ['r','e','m','o','v','e'] then
    if parsed.arg1 = [] then pure (state,.INVALID_ARGUMENT)
    else inState .PROCESS_REMOVE (handleRemove parsed.arg1)
  else if parsed.command = ascii ['r','e','n','a','m','e'] then
    if parsed.arg1 = [] ∨ parsed.arg2 = [] then pure (state,.INVALID_ARGUMENT)
    else inState .PROCESS_RENAME (handleRename config parsed.arg1 parsed.arg2)
  else if parsed.command = ascii ['s','h','u','t','d','o','w','n'] then
    inState .SHUTDOWN handleShutdown
  else if parsed.command = ascii ['q','u','i','t'] ∨ parsed.command = ascii ['e','x','i','t'] then
    pure (.QUIT,.SUCCESS)
  else pure (state,.INVALID_COMMAND)

end Client

section Words
variable {s spaces n : Bytes}

theorem nextWord_fst (s : Bytes) :
    (nextWord s).1 = (s.dropWhile isSpace).takeWhile fun c => !isSpace c := by
  rw [nextWord,List.span_eq_takeWhile_dropWhile]

theorem nextWord_snd (s : Bytes) :
    (nextWord s).2 = (s.dropWhile isSpace).dropWhile fun c => !isSpace c := by
  rw [nextWord,List.span_eq_takeWhile_dropWhile]

theorem not_isSpace_of_mem_word {c : UInt8} (h : c ∈ (nextWord s).1) : isSpace c = false := by
  rw [nextWord_fst] at h
  simpa using List.mem_takeWhile_imp h

/-- A word that a space ends. -/
theorem nextWord_append_space (hne : n ≠ []) (hn : ∀ c ∈ n, isSpace c = false) (s : Bytes) :
    nextWord (n ++ 32 :: s) = (n,32 :: s) := by
  have hdrop : (n ++ 32 :: s).dropWhile isSpace = n ++ 32 :: s := by
    cases n with
    | nil => exact absurd rfl hne
    | cons c n => exact List.dropWhile_cons_of_neg (by simp [hn c List.mem_cons_self])
  have hall : ∀ c ∈ n, (!isSpace c) = true := fun c hc => by simp [hn c hc]
  rw [nextWord,hdrop,List.span_eq_takeWhile_dropWhile,List.takeWhile_append_of_pos hall,
    List.dropWhile_append_of_pos hall]
  simp [isSpace]

theorem nextWord_space (s : Bytes) : nextWord (32 :: s) = nextWord s := by
  rw [nextWord,List.dropWhile_cons_of_pos (by decide),nextWord]

theorem word_eq_self (hne : n ≠ []) (hn : ∀ c ∈ n, isSpace c = false) : (nextWord n).1 = n := by
  have hdrop : n.dropWhile isSpace = n := by
    cases n with
    | nil => rfl
    | cons c n => exact List.dropWhile_cons_of_neg (by simp [hn c List.mem_cons_self])
  rw [nextWord_fst,hdrop]
  exact List.takeWhile_eq_self_iff.mpr fun c hc => by simp [hn c hc]

/-- Spaces at the end change no word. -/
theorem nextWord_append_spaces (s : Bytes) (h : ∀ c ∈ spaces, isSpace c = true) :
    ∃ spaces', (∀ c ∈ spaces', isSpace c = true) ∧
      nextWord (s ++ spaces) = ((nextWord s).1,(nextWord s).2 ++ spaces') := by
  by_cases hs : s.dropWhile isSpace = []
  · refine ⟨[],by simp,?_⟩
    have hall : (s ++ spaces).dropWhile isSpace = [] := by
      rw [List.dropWhile_append,hs,List.isEmpty_nil,if_pos rfl]
      exact List.dropWhile_eq_nil_iff.mpr h
    rw [nextWord,nextWord,hall,hs]
    rfl
  · refine ⟨spaces,h,?_⟩
    have hdrop : (s ++ spaces).dropWhile isSpace = s.dropWhile isSpace ++ spaces := by
      rw [List.dropWhile_append,if_neg (by simpa using hs)]
    have htake : spaces.takeWhile (fun c => !isSpace c) = [] := by
      cases spaces with
      | nil => rfl
      | cons c spaces => exact List.takeWhile_cons_of_neg (by simp [h c List.mem_cons_self])
    have hstay : spaces.dropWhile (fun c => !isSpace c) = spaces := by
      cases spaces with
      | nil => rfl
      | cons c spaces => exact List.dropWhile_cons_of_neg (by simp [h c List.mem_cons_self])
    rw [Prod.ext_iff,nextWord_fst,nextWord_snd,nextWord_fst,nextWord_snd,hdrop,
      List.takeWhile_append,List.dropWhile_append,htake,hstay,List.append_nil]
    constructor
    · split
      · rename_i hlen
        exact ((List.takeWhile_prefix _).eq_of_length hlen).symm
      · rfl
    · split
      · rename_i hnil
        rw [List.isEmpty_iff.mp hnil,List.nil_append]
      · rfl

/-- The spaces around a line change none of its words. -/
theorem trim_append (str : Bytes) : ∃ spaces, (∀ c ∈ spaces, isSpace c = true) ∧
    trim str ++ spaces = str.dropWhile isSpace :=
  ⟨(str.dropWhile isSpace).rtakeWhile isSpace,fun _ hc => List.mem_rtakeWhile_imp hc,
    List.rdropWhile_append_rtakeWhile⟩

theorem nextWord_dropWhile (s : Bytes) : nextWord (s.dropWhile isSpace) = nextWord s := by
  rw [nextWord,List.dropWhile_idempotent,nextWord]

namespace Client

theorem parseCommand_trim (str : Bytes) : parseCommand (trim str) = parseCommand str := by
  obtain ⟨spaces,hspaces,htrim⟩ := trim_append str
  obtain ⟨spaces₁,h₁,he₁⟩ := nextWord_append_spaces (trim str) hspaces
  obtain ⟨spaces₂,h₂,he₂⟩ := nextWord_append_spaces (nextWord (trim str)).2 h₁
  obtain ⟨_,_,he₃⟩ := nextWord_append_spaces (nextWord (nextWord (trim str)).2).2 h₂
  rw [htrim,nextWord_dropWhile] at he₁
  simp only [parseCommand,he₁,he₂,he₃]

def removeLine (n : Bytes) : Bytes := ascii ['r','e','m','o','v','e',' '] ++ n

def renameLine (m n : Bytes) : Bytes := ascii ['r','e','n','a','m','e',' '] ++ m ++ [32] ++ n

theorem parseCommand_removeLine (n : Bytes) : ∃ arg2, parseCommand (trim (removeLine n)) =
    ⟨ascii ['r','e','m','o','v','e'],(nextWord n).1,arg2⟩ := by
  have hline : nextWord (removeLine n) = (ascii ['r','e','m','o','v','e'],32 :: n) :=
    nextWord_append_space (show ascii ['r','e','m','o','v','e'] ≠ [] by decide)
      (by decide +kernel) n
  rw [parseCommand_trim]
  simp only [parseCommand,hline,nextWord_space]
  exact ⟨_,rfl⟩

theorem parseCommand_renameLine (m n : Bytes) : parseCommand (trim (renameLine m n)) =
    ⟨ascii ['r','e','n','a','m','e'],(nextWord (m ++ 32 :: n)).1,
      (nextWord (nextWord (m ++ 32 :: n)).2).1⟩ := by
  have hline : nextWord (renameLine m n) = (ascii ['r','e','n','a','m','e'],32 :: (m ++ 32 :: n)) := by
    have hrest : renameLine m n = ascii ['r','e','n','a','m','e'] ++ 32 :: (m ++ 32 :: n) := by
      simp [renameLine,ascii]
    rw [hrest]
    exact nextWord_append_space (show ascii ['r','e','n','a','m','e'] ≠ [] by decide)
      (by decide +kernel) _
  rw [parseCommand_trim]
  simp only [parseCommand,hline,nextWord_space]
  rfl

end Client

end Words

/-! What a command sends. -/

/-- The command is about this name. -/
def Names (command : Command) (n : Bytes) (msg : CmdMsg) : Prop :=
  msg.getCommand = some command ∧ ∀ beyond, cString (msg.tail ++ beyond) = n

/-- One REMOVE is sent, for exactly this name. -/
def Removes (n : Bytes) (tr : Trace) : Prop :=
  ∃ msg, Names .REMOVE n msg ∧ sends tr = [msg.encode]

/-- A RENAME is sent for exactly the old name, behind it at most the new name and an answer to
the question whether to overwrite. -/
def Renames (m n : Bytes) (tr : Trace) : Prop :=
  ∃ (msg : CmdMsg) (data : DataMsg) (confirm : CmdMsg), Names .RENAME m msg ∧
    (∀ beyond, cString (data.toList ++ beyond) = n) ∧
    confirm.getCommand = some .OVERWRITE ∧ sends tr ≠ [] ∧
    sends tr <+: [msg.encode,data.toList,confirm.encode]

namespace Client
section Sends
variable {config : ClientConfig} {m m' : Members} {tr : Trace} {e : ErrorCode} {n : Bytes}

/-- A call that sends nothing. -/
def SendsNothing (o : Sys) : Prop := ∀ dest d, o ≠ .sendto dest d

theorem sends_of_within {p : Handler ErrorCode} (h : Within SendsNothing (p m))
    (hr : Runs p m tr e m') : sends tr = [] := by
  refine List.filterMap_eq_nil_iff.mpr fun ev hev => ?_
  have hno := h.of_exec hr ev hev
  obtain ⟨o,r⟩ := ev
  cases o with
  | sendto dest d => exact absurd rfl (hno dest d)
  | _ => rfl

theorem within_receiveResponse {response : CmdMsg} {f : ErrorCode × CmdMsg → Handler ErrorCode}
    (hf : ∀ r m, Within SendsNothing (f r m)) :
    Within SendsNothing ((receiveResponse response >>= f) m) := by
  refine .call (fun _ _ => by simp) fun r => ?_
  rcases r with _ | ⟨sender,d⟩
  · exact hf _ _
  · cases d with
    | nil => exact hf _ _
    | cons b d => exact hf _ _

theorem sends_handleRemove (h : Runs (handleRemove n) m tr e m') :
    sends tr = [(command .REMOVE n).encode] := by
  obtain ⟨ok,tr',rfl,h'⟩ := runs_sendto_bind.mp h
  have hrest : sends tr' = [] := by
    refine sends_of_within ?_ h'
    refine .ite (fun _ => .ret _) fun _ => within_receiveResponse fun r m => ?_
    exact .ite (fun _ => .ret _) fun _ => .ite (fun _ => .ret _) fun _ =>
      .ite (fun _ => .ret _) fun _ => .ret _
  rw [sends_sendto,hrest]

/-- Receiving sends nothing. -/
theorem sends_receiveResponse {P : List Bytes → Prop} {response : CmdMsg}
    {f : ErrorCode × CmdMsg → Handler ErrorCode}
    (hf : ∀ r m m' tr e, Runs (f r) m tr e m' → P (sends tr))
    (h : Runs (receiveResponse response >>= f) m tr e m') : P (sends tr) := by
  rcases runs_receiveResponse_bind.mp h with ⟨tr',rfl,h'⟩ | ⟨sender,d,tr',rfl,h'⟩
  · rw [sends_recvfrom]
    exact hf _ _ _ _ _ h'
  · rw [sends_recvfrom]
    exact hf _ _ _ _ _ h'

/-- What is sent behind the new name: an answer to the question whether to overwrite. -/
theorem sends_confirmRename {ackMsg : CmdMsg} (h : Runs (confirmRename ackMsg) m tr e m') :
    ∃ error : UInt16, sends tr = [{ command .OVERWRITE [] with error := error }.encode] := by
  obtain ⟨answer,tr₁,rfl,h₁⟩ := runs_ask_bind.mp h
  obtain ⟨ok,tr₂,rfl,h₂⟩ := runs_sendto_bind.mp h₁
  have hrest : sends tr₂ = [] := by
    refine sends_of_within ?_ h₂
    refine .ite (fun _ => .ret _) fun _ => within_receiveResponse fun r m => ?_
    exact .ite (fun _ => .ret _) fun _ => .ite (fun _ => .ret _) fun _ => .ret _
  refine ⟨if saysYes answer then 0 else 1,?_⟩
  rw [sends_answer,sends_sendto,hrest]

theorem sends_sendNewName (h : Runs (sendNewName n) m tr e m') :
    ∃ error : UInt16, sends tr ≠ [] ∧ sends tr <+:
      [(DataMsg.setData n).toList,{ command .OVERWRITE [] with error := error }.encode] := by
  obtain ⟨ok,tr₁,rfl,h₁⟩ := runs_sendto_bind.mp h
  rw [sends_sendto]
  suffices hrest : sends tr₁ = [] ∨ ∃ error : UInt16,
      sends tr₁ = [{ command .OVERWRITE [] with error := error }.encode] by
    rcases hrest with hnil | ⟨error,he⟩
    · rw [hnil]
      exact ⟨0,by simp,by simp⟩
    · rw [he]
      exact ⟨error,by simp,List.prefix_rfl⟩
  cases ok with
  | false =>
    obtain ⟨rfl,-⟩ := runs_pure.mp h₁
    exact Or.inl rfl
  | true =>
    refine sends_receiveResponse (P := fun sent => sent = [] ∨ ∃ error : UInt16,
      sent = [{ command .OVERWRITE [] with error := error }.encode]) ?_ h₁
    intro r m m' tr e h
    dsimp only at h
    split at h
    · exact Or.inl (by rw [(runs_pure.mp h).1,sends_nil])
    · split at h
      · exact Or.inl (by rw [(runs_pure.mp h).1,sends_nil])
      · split at h
        · exact Or.inr (sends_confirmRename h)
        · exact Or.inl (by rw [(runs_pure.mp h).1,sends_nil])

theorem sends_handleRename {m₀ n : Bytes} (h : Runs (handleRename config m₀ n) m tr e m') :
    ∃ error : UInt16, sends tr ≠ [] ∧ sends tr <+: [(command .RENAME m₀).encode,
      (DataMsg.setData n).toList,{ command .OVERWRITE [] with error := error }.encode] := by
  obtain ⟨ok,tr₁,rfl,h₁⟩ := runs_sendto_bind.mp h
  rw [sends_sendto]
  suffices hrest : sends tr₁ = [] ∨ ∃ error : UInt16, sends tr₁ <+:
      [(DataMsg.setData n).toList,{ command .OVERWRITE [] with error := error }.encode] by
    rcases hrest with hnil | ⟨error,he⟩
    · rw [hnil]
      exact ⟨0,by simp,by simp⟩
    · exact ⟨error,by simp,(List.prefix_cons_inj _).mpr he⟩
  cases ok with
  | false =>
    obtain ⟨rfl,-⟩ := runs_pure.mp h₁
    exact Or.inl rfl
  | true =>
    have hname : ∀ m m' tr e, Runs (sendNewName n) m tr e m' → ∃ error : UInt16, sends tr <+:
        [(DataMsg.setData n).toList,{ command .OVERWRITE [] with error := error }.encode] := by
      intro m m' tr e h
      obtain ⟨error,-,hpre⟩ := sends_sendNewName h
      exact ⟨error,hpre⟩
    change Runs (if config.enableHandshake = true then _ else _) m tr₁ e m' at h₁
    split at h₁
    · refine sends_receiveResponse (P := fun sent => sent = [] ∨ ∃ error : UInt16, sent <+:
        [(DataMsg.setData n).toList,{ command .OVERWRITE [] with error := error }.encode]) ?_ h₁
      intro r m m' tr e h
      dsimp only at h
      split at h
      · exact Or.inl (by rw [(runs_pure.mp h).1,sends_nil])
      · split at h
        · exact Or.inl (by rw [(runs_pure.mp h).1,sends_nil])
        · exact Or.inr (hname _ _ _ _ h)
    · exact Or.inr (hname _ _ _ _ h₁)

/-- The handler can get as far as the new name. -/
theorem handleRename_runs (config : ClientConfig) (oldName newName : Bytes) :
    ∃ m tr e m', Runs (handleRename config oldName newName) m tr e m' ∧
      sends tr = [(command .RENAME oldName).encode,(DataMsg.setData newName).toList] := by
  let m : Members := ⟨⟨0,0⟩,[]⟩
  let named : Trace := [⟨.sendto m.serverAddr (DataMsg.setData newName).toList,false⟩]
  have hname : Runs (sendNewName newName) m named .SOCKET_SEND_ERROR m :=
    runs_sendto_bind.mpr ⟨false,[],rfl,runs_pure.mpr ⟨rfl,rfl,rfl⟩⟩
  cases hc : config.enableHandshake with
  | false =>
    refine ⟨m,_ :: named,.SOCKET_SEND_ERROR,m,runs_sendto_bind.mpr ⟨true,_,rfl,?_⟩,rfl⟩
    change Runs (if config.enableHandshake = true then _ else _) m _ _ m
    rw [hc,if_neg (by simp)]
    exact hname
  | true =>
    refine ⟨m,_ :: ⟨.recvfrom 137,some (⟨0,0⟩,CmdMsg.new.encode)⟩ :: named,
      .SOCKET_SEND_ERROR,m,runs_sendto_bind.mpr ⟨true,_,rfl,?_⟩,rfl⟩
    change Runs (if config.enableHandshake = true then _ else _) m _ _ m
    rw [hc,if_pos rfl]
    refine runs_receiveResponse_bind.mpr (Or.inr ⟨_,_,_,rfl,?_⟩)
    have hready : CmdMsg.decode (overlay CmdMsg.new.encode CmdMsg.new.encode) = .new :=
      CmdMsg.received_encode .new
    have hsome : CmdMsg.new.encode ≠ [] := List.cons_ne_nil _ _
    rw [if_neg hsome,hready]
    exact hname

theorem runs_inState {state : ClientState} {handler : Handler ErrorCode}
    {r : ClientState × ErrorCode} (h : Runs (inState state handler) m tr r m') :
    ∃ e, Runs handler m tr e m' := by
  obtain ⟨e,m₁,tr₁,tr₂,h₁,h₂,rfl⟩ := runs_bind.mp h
  obtain ⟨rfl,-,rfl⟩ := runs_pure.mp h₂
  rw [List.append_nil]
  exact ⟨e,h₁⟩

theorem inState_runs {state : ClientState} {handler : Handler ErrorCode}
    (h : Runs handler m tr e m') : Runs (inState state handler) m tr (state,e) m' :=
  runs_bind.mpr ⟨e,m',tr,[],h,runs_pure.mpr ⟨rfl,rfl,rfl⟩,(List.append_nil _).symm⟩

theorem executeCommand_removeLine (config : ClientConfig) (state : ClientState) (n : Bytes) :
    executeCommand config state (trim (removeLine n)) =
      if (nextWord n).1 = [] then pure (state,.INVALID_ARGUMENT)
      else inState .PROCESS_REMOVE (handleRemove (nextWord n).1) := by
  obtain ⟨arg2,hparse⟩ := parseCommand_removeLine n
  rw [executeCommand,hparse]
  rfl

theorem executeCommand_renameLine (config : ClientConfig) (state : ClientState) (m n : Bytes) :
    executeCommand config state (trim (renameLine m n)) =
      if (nextWord (m ++ 32 :: n)).1 = [] ∨ (nextWord (nextWord (m ++ 32 :: n)).2).1 = [] then
        pure (state,.INVALID_ARGUMENT)
      else inState .PROCESS_RENAME (handleRename config (nextWord (m ++ 32 :: n)).1
        (nextWord (nextWord (m ++ 32 :: n)).2).1) := by
  rw [executeCommand,parseCommand_renameLine]
  rfl

end Sends
end Client

section Exact
variable {m n w : Bytes}

theorem isSpace_iff_of_valid {c : UInt8} (h : isValidFilename n = true) (hc : c ∈ n) :
    isSpace c = true ↔ c = 32 := by
  have hcontrol : ¬c < 32 := ((valid_iff_permitted n).mp h).noControl c hc
  constructor
  · intro hs
    rcases of_decide_eq_true hs with he | ⟨-,hle⟩
    · exact he
    · exact absurd (UInt8.lt_of_le_of_lt hle (by decide)) hcontrol
  · rintro rfl
    rfl

theorem no_space_iff (h : isValidFilename n = true) :
    (∀ c ∈ n, isSpace c = false) ↔ 32 ∉ n := by
  constructor
  · intro hall hc
    exact absurd (hall 32 hc) (by decide)
  · intro hno c hc
    rw [Bool.eq_false_iff]
    intro hs
    exact hno ((isSpace_iff_of_valid h hc).mp hs ▸ hc)

theorem wireName_eq_iff_length (h : isValidFilename n = true) :
    wireName n = n ↔ n.length ≤ 127 := by
  rw [wireName_of_valid h,List.take_eq_self_iff]

theorem mem_of_mem_wireName {c : UInt8} (h : c ∈ wireName w) : c ∈ w :=
  (List.takeWhile_prefix _).subset ((List.take_prefix _ _).subset h)

theorem mem_of_mem_wireNewName {c : UInt8} (h : c ∈ wireNewName w) : c ∈ w :=
  (List.take_prefix _ _).subset ((List.takeWhile_prefix _).subset h)

theorem names_command_iff {c : Command} : Names c n (Client.command c w) ↔ wireName w = n := by
  constructor
  · rintro ⟨-,hread⟩
    exact (cString_tail [] rfl).symm.trans (hread [])
  · rintro rfl
    exact ⟨Command.ofCode_code c,fun beyond => cString_tail beyond rfl⟩

theorem encode_inj {a b : CmdMsg} (h : a.encode = b.encode) : a = b := by
  rw [← CmdMsg.decode_encode a,h,CmdMsg.decode_encode]

open Client

/-- What a typed removal sends is for exactly the name, or it is not. -/
theorem removes_iff {config : ClientConfig} {state : ClientState} {mc mc' : Client.Members}
    {tr : Trace} {r : ClientState × ErrorCode} (hn : isValidFilename n = true)
    (h : Runs (executeCommand config state (trim (removeLine n))) mc tr r mc') :
    Removes n tr ↔ 32 ∉ n ∧ n.length ≤ 127 := by
  rw [executeCommand_removeLine] at h
  have hword : 32 ∉ n → (nextWord n).1 = n :=
    fun hno => word_eq_self (valid_ne_nil hn) ((no_space_iff hn).mpr hno)
  constructor
  · rintro ⟨msg,hmsg,hsends⟩
    split at h
    · rw [(runs_pure.mp h).1] at hsends
      cases hsends
    · obtain ⟨e,hrun⟩ := runs_inState h
      rw [sends_handleRemove hrun] at hsends
      obtain rfl := encode_inj (List.singleton_inj.mp hsends)
      have hwire := names_command_iff.mp hmsg
      have hno : 32 ∉ n := by
        rw [← no_space_iff hn,← hwire]
        exact fun c hc => not_isSpace_of_mem_word (mem_of_mem_wireName hc)
      rw [hword hno] at hwire
      exact ⟨hno,(wireName_eq_iff_length hn).mp hwire⟩
  · rintro ⟨hno,hlen⟩
    rw [hword hno,if_neg (valid_ne_nil hn)] at h
    obtain ⟨e,hrun⟩ := runs_inState h
    exact ⟨_,names_command_iff.mpr ((wireName_eq_iff_length hn).mpr hlen),sends_handleRemove hrun⟩

theorem renames_of_words {config : ClientConfig} {state : ClientState} {mc mc' : Client.Members}
    {tr : Trace} {r : ClientState × ErrorCode} (hm : isValidFilename m = true)
    (hn : isValidFilename n = true) (hlen : m.length ≤ 127)
    (hword : nextWord (m ++ 32 :: n) = (m,32 :: n)) (hword' : (nextWord n).1 = n)
    (h : Runs (executeCommand config state (trim (renameLine m n))) mc tr r mc') :
    Renames m n tr := by
  rw [executeCommand_renameLine,hword,nextWord_space,hword',
    if_neg (not_or.mpr ⟨valid_ne_nil hm,valid_ne_nil hn⟩)] at h
  obtain ⟨e,hrun⟩ := runs_inState h
  obtain ⟨error,hsome,hpre⟩ := sends_handleRename hrun
  exact ⟨_,_,_,names_command_iff.mpr ((wireName_eq_iff_length hm).mpr hlen),
    fun beyond => (cString_setData n beyond).trans (wireNewName_of_valid hn),rfl,hsome,hpre⟩

theorem words_of_no_space (hm : isValidFilename m = true) (hno : 32 ∉ m) :
    nextWord (m ++ 32 :: n) = (m,32 :: n) :=
  nextWord_append_space (valid_ne_nil hm) ((no_space_iff hm).mpr hno) n

/-- A typed rename is for exactly the two names, or some run of it is not. -/
theorem renames_iff {config : ClientConfig} {state : ClientState} (hm : isValidFilename m = true)
    (hn : isValidFilename n = true) :
    (∀ mc mc' tr r, Runs (executeCommand config state (trim (renameLine m n))) mc tr r mc' →
      Renames m n tr) ↔ 32 ∉ m ∧ 32 ∉ n ∧ m.length ≤ 127 := by
  constructor
  · intro hall
    rw [executeCommand_renameLine] at hall
    split at hall
    · obtain ⟨msg,data,confirm,-,-,-,hsome,-⟩ :=
        hall ⟨⟨0,0⟩,[]⟩ _ [] _ (runs_pure.mpr ⟨rfl,rfl,rfl⟩)
      exact absurd rfl hsome
    · obtain ⟨mc,tr,e,mc',hrun,hsends⟩ := handleRename_runs config (nextWord (m ++ 32 :: n)).1
        (nextWord (nextWord (m ++ 32 :: n)).2).1
      obtain ⟨msg,data,confirm,hmsg,hdata,-,-,hpre⟩ := hall _ _ _ _ (inState_runs hrun)
      rw [hsends,List.cons_prefix_cons,List.cons_prefix_cons] at hpre
      obtain ⟨hold,hnew,-⟩ := hpre
      obtain rfl := encode_inj hold
      have hwire := names_command_iff.mp hmsg
      have hno : 32 ∉ m := by
        rw [← no_space_iff hm,← hwire]
        exact fun c hc => not_isSpace_of_mem_word (mem_of_mem_wireName hc)
      have hread := hdata []
      rw [← hnew,cString_setData] at hread
      have hno' : 32 ∉ n := by
        rw [← no_space_iff hn,← hread]
        exact fun c hc => not_isSpace_of_mem_word (mem_of_mem_wireNewName hc)
      rw [words_of_no_space hm hno] at hwire
      exact ⟨hno,hno',(wireName_eq_iff_length hm).mp hwire⟩
  · rintro ⟨hno,hno',hlen⟩ mc mc' tr r hrun
    exact renames_of_words hm hn hlen (words_of_no_space hm hno)
      (word_eq_self (valid_ne_nil hn) ((no_space_iff hn).mpr hno')) hrun

/-- A typed name is the one that is sent unless it has a space or more than 127 bytes; a new
name may be longer. -/
theorem command_line_exact (config : ClientConfig) (state : ClientState) :
    (∀ n, isValidFilename n = true → ∀ mc mc' tr r,
      Runs (executeCommand config state (trim (removeLine n))) mc tr r mc' →
        (Removes n tr ↔ 32 ∉ n ∧ n.length ≤ 127)) ∧
    ∀ m n, isValidFilename m = true → isValidFilename n = true →
      ((∀ mc mc' tr r, Runs (executeCommand config state (trim (renameLine m n))) mc tr r mc' →
        Renames m n tr) ↔ 32 ∉ m ∧ 32 ∉ n ∧ m.length ≤ 127) :=
  ⟨fun _ hn _ _ _ _ hrun => removes_iff hn hrun,fun _ _ hm hn => renames_iff hm hn⟩

theorem command_line_exact_short : ∀ mc mc' tr r,
    Runs (executeCommand ⟨true⟩ .WAITING (trim (renameLine [97] [98]))) mc tr r mc' →
      Renames [97] [98] tr :=
  ((command_line_exact ⟨true⟩ .WAITING).2 [97] [98] (by decide) (by decide)).mpr (by decide)

/-- `remove a b` removes `a`. -/
theorem not_command_line_exact_always :
    ¬∀ (config : ClientConfig) (state : ClientState) (n : Bytes), isValidFilename n = true →
      ∀ mc mc' tr r, Runs (executeCommand config state (trim (removeLine n))) mc tr r mc' →
        Removes n tr := by
  intro hall
  let mc : Client.Members := ⟨⟨0,0⟩,[]⟩
  have hrun : Runs (executeCommand ⟨true⟩ .WAITING (trim (removeLine [97,32,98]))) mc
      [⟨.sendto mc.serverAddr (Client.command .REMOVE [97]).encode,false⟩]
      (.PROCESS_REMOVE,.SOCKET_SEND_ERROR) mc := by
    rw [executeCommand_removeLine,show (nextWord [97,32,98]).1 = [97] by decide,if_neg (by decide)]
    exact inState_runs (runs_sendto_bind.mpr ⟨false,[],rfl,runs_pure.mpr ⟨rfl,rfl,rfl⟩⟩)
  have hvalid : isValidFilename [97,32,98] = true := by decide
  exact absurd ((removes_iff hvalid hrun).mp (hall _ _ _ hvalid _ _ _ _ hrun)).1 (by decide)

end Exact

end NetworkLab.Backup
