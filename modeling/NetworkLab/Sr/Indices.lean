import NetworkLab.Sr.Rounds
set_option autoImplicit false

/-! The indices at which `stable.c` reads and writes its arrays. The sender's have room for
a window, the receiver's for eight packets. -/

namespace NetworkLab.Sr
open Rdt Slots Relation

inductive Access where
  | winbuf (i : Int)
  | buffer (i : Int)
  | recvWindow (i : Int)
  | recvMarked (i : Int)
  deriving DecidableEq, Repr

/-- `WINDOWSIZE`, `MAXBUFSIZE`, and the 8 of the two static arrays. -/
def Access.Inside (W : Nat) : Access → Prop
  | .winbuf i => 0 ≤ i ∧ i < W
  | .buffer i => 0 ≤ i ∧ i < maxbufsize
  | .recvWindow i => 0 ≤ i ∧ i < 8
  | .recvMarked i => 0 ≤ i ∧ i < 8

def aOutputAccesses (W : Nat) (s : AVars) : List Access :=
  if s.nextseqnum < s.base + W then [.winbuf s.winrear]
  else if s.msgNum < maxbufsize - 1 then [.buffer s.bufrear]
  else []

/-- The search loop reads the slots up to the one that it finds. -/
def searchAccesses (W : Nat) (seq : Int) (s : AVars) : List Access :=
  let slots := (List.range s.pktnum).map fun i => (s.winfront + i) % W
  let found := slots.findIdx fun idx =>
    decide ((s.winbuf idx).seqnum = seq) && decide ((s.winbuf idx).acknum = 0)
  (slots.take (found + 1)).map fun idx : Nat => .winbuf idx

/-- `winbuf[winfront]` is read in each test of the loop that finds a packet. -/
def slideAccesses (W : Nat) : Nat → AVars → List Access
  | 0, _ => []
  | fuel+1, s =>
    if 0 < s.pktnum then
      .winbuf s.winfront ::
        if (s.winbuf s.winfront).acknum = 1 ∧ (s.winbuf s.winfront).seqnum = s.base then
          slideAccesses W fuel { s with base := s.base + 1
                                        winfront := (s.winfront + 1) % W
                                        pktnum := s.pktnum - 1 }
        else []
    else []

def sendBufferedAccesses (W : Nat) : Nat → AVars → List Access
  | 0, _ => []
  | fuel+1, s =>
    if 0 < s.msgNum ∧ s.nextseqnum < s.base + W then
      .buffer s.buffront :: .winbuf s.winrear ::
        sendBufferedAccesses W fuel (sendPacket W (s.buffer s.buffront) (dropBuffered s)).1
    else []

def aInputAccesses (W : Nat) (packet : Pkt) (s : AVars) : List Access :=
  if checkCorrupted packet then []
  else if packet.acknum < s.base ∨ (s.nextseqnum : Int) ≤ packet.acknum then []
  else
    searchAccesses W packet.acknum s ++
      match findUnacked W packet.acknum s with
      | none => []
      | some foundIndex =>
        let s := markAcked foundIndex s
        let s' := slide W s.pktnum s
        .winbuf foundIndex ::
          (slideAccesses W s.pktnum s ++ sendBufferedAccesses W s'.msgNum s')

def aPacketTimeRinterruptAccesses (W : Nat) (pktSeq : Int) (s : AVars) : List Access :=
  searchAccesses W pktSeq s ++
    match findUnacked W pktSeq s with
    | none => []
    | some idx => [.winbuf idx]

/-- Each test of the loop reads the mark, and the packet only when the mark is set. -/
def deliverAccesses (W : Nat) : Nat → BVars → List Access
  | 0, s => [.recvMarked (s.expectedSeq % W : Nat)]
  | fuel+1, s =>
    let slot := s.expectedSeq % W
    .recvMarked slot ::
      if s.recvMarked slot = true then
        .recvWindow slot ::
          if (s.recvWindow slot).seqnum = s.expectedSeq then
            .recvWindow slot :: .recvMarked slot :: deliverAccesses W fuel
              { s with recvMarked := Function.update s.recvMarked slot false
                       expectedSeq := s.expectedSeq + 1 }
          else []
      else []

/-- The index is C's remainder, before it is taken for a slot. -/
def bInputAccesses (W : Nat) (packet : Pkt) (s : BVars) : List Access :=
  if checkCorrupted packet then []
  else if inWindow W packet.seqnum s.expectedSeq then
    let index := packet.seqnum.tmod W
    let slot := index.toNat
    .recvMarked index :: (if s.recvMarked slot = true then [.recvWindow index] else []) ++
      if s.recvMarked slot = false ∨ (s.recvWindow slot).seqnum ≠ packet.seqnum then
        .recvWindow index :: .recvMarked index :: deliverAccesses W W (store slot packet s)
      else deliverAccesses W W s
  else []

/-- What the next round of the main loop reads and writes. -/
def stepAccesses {T : Type} (W : Nat) (s : Sim T Vars) : List Access :=
  match s.evlist with
  | [] => []
  | e :: _ =>
    match e.evtype with
    | .fromLayer5 => aOutputAccesses W s.vars.a
    | .fromLayer3 .A p => aInputAccesses W p s.vars.a
    | .fromLayer3 .B p => bInputAccesses W p s.vars.b
    | .timeRInterrupt q => aPacketTimeRinterruptAccesses W q s.vars.a

section Inside
variable {W : Nat} {v : AVars} {b : BVars}

/-- The four counters of A that are used as indices. -/
structure Counters (W : Nat) (v : AVars) : Prop where
  winfront : v.winfront < W
  winrear : v.winrear < W
  buffront : v.buffront < maxbufsize
  bufrear : v.bufrear < maxbufsize

theorem Sender.counters {given : List Msg} {timers : List Int} (h : Sender W v given timers)
    (hW : 0 < W) : Counters W v := by
  refine ⟨?_,?_,h.queue.buffered.front_lt,?_⟩
  · rw [h.ring.front]
    exact Nat.mod_lt _ hW
  · rw [h.ring.rear]
    exact Nat.mod_lt _ hW
  · rw [h.queue.buffered.rear_eq]
    exact Nat.mod_lt _ (by decide)

theorem inside_winbuf {i : Nat} (h : i < W) : (Access.winbuf i).Inside W :=
  ⟨Int.natCast_nonneg i,Int.ofNat_lt.mpr h⟩

theorem inside_buffer {i : Nat} (h : i < maxbufsize) : (Access.buffer i).Inside W :=
  ⟨Int.natCast_nonneg i,Int.ofNat_lt.mpr h⟩

theorem Counters.aOutput (h : Counters W v) : ∀ x ∈ aOutputAccesses W v, x.Inside W := by
  rw [aOutputAccesses]
  split
  · exact List.forall_mem_singleton.mpr (inside_winbuf h.winrear)
  · split
    · exact List.forall_mem_singleton.mpr (inside_buffer h.bufrear)
    · simp

theorem search_inside (hW : 0 < W) (seq : Int) (v : AVars) :
    ∀ x ∈ searchAccesses W seq v, x.Inside W := by
  intro x hx
  obtain ⟨idx,hidx,rfl⟩ := List.mem_map.mp hx
  obtain ⟨i,-,rfl⟩ := List.mem_map.mp (List.mem_of_mem_take hidx)
  exact inside_winbuf (Nat.mod_lt _ hW)

theorem findUnacked_lt (hW : 0 < W) {seq : Int} {idx : Nat} (h : findUnacked W seq v = some idx) :
    idx < W := by
  obtain ⟨i,-,rfl⟩ := List.mem_map.mp (List.mem_of_find?_eq_some h)
  exact Nat.mod_lt _ hW

theorem slide_inside (hW : 0 < W) (fuel : Nat) (h : v.winfront < W) :
    ∀ x ∈ slideAccesses W fuel v, x.Inside W := by
  induction fuel generalizing v with
  | zero => simp [slideAccesses]
  | succ fuel ih =>
    rw [slideAccesses]
    split
    · refine List.forall_mem_cons.mpr ⟨inside_winbuf h,?_⟩
      split
      · exact ih (Nat.mod_lt _ hW)
      · simp
    · simp

theorem Counters.slide (h : Counters W v) (hW : 0 < W) (fuel : Nat) :
    Counters W (slide W fuel v) := by
  induction fuel generalizing v with
  | zero => exact h
  | succ fuel ih =>
    rw [Sr.slide]
    split
    · exact ih ⟨Nat.mod_lt _ hW,h.winrear,h.buffront,h.bufrear⟩
    · exact h

theorem Counters.sendBuffered (h : Counters W v) (hW : 0 < W) (fuel : Nat) :
    ∀ x ∈ sendBufferedAccesses W fuel v, x.Inside W := by
  induction fuel generalizing v with
  | zero => simp [sendBufferedAccesses]
  | succ fuel ih =>
    rw [sendBufferedAccesses]
    split
    · refine List.forall_mem_cons.mpr ⟨inside_buffer h.buffront,
        List.forall_mem_cons.mpr ⟨inside_winbuf h.winrear,ih ?_⟩⟩
      exact ⟨h.winfront,Nat.mod_lt _ hW,Nat.mod_lt _ (by decide),h.bufrear⟩
    · simp

theorem Counters.aInput (h : Counters W v) (hW : 0 < W) (p : Pkt) :
    ∀ x ∈ aInputAccesses W p v, x.Inside W := by
  rw [aInputAccesses]
  split
  · simp
  · split
    · simp
    · refine List.forall_mem_append.mpr ⟨search_inside hW _ _,?_⟩
      split
      · simp
      · rename_i idx hidx
        have hmark : Counters W (markAcked idx v) := ⟨h.1,h.2,h.3,h.4⟩
        refine List.forall_mem_cons.mpr ⟨inside_winbuf (findUnacked_lt hW hidx),
          List.forall_mem_append.mpr ⟨slide_inside hW _ hmark.winfront,?_⟩⟩
        exact (hmark.slide hW _).sendBuffered hW _

theorem timer_inside (hW : 0 < W) (q : Int) (v : AVars) :
    ∀ x ∈ aPacketTimeRinterruptAccesses W q v, x.Inside W := by
  rw [aPacketTimeRinterruptAccesses]
  refine List.forall_mem_append.mpr ⟨search_inside hW _ _,?_⟩
  split
  · simp
  · rename_i idx hidx
    exact List.forall_mem_singleton.mpr (inside_winbuf (findUnacked_lt hW hidx))

theorem deliver_inside (hW : 0 < W) (hW8 : W ≤ 8) (fuel : Nat) (b : BVars) :
    ∀ x ∈ deliverAccesses W fuel b, x.Inside W := by
  have hslot : 0 ≤ ((b.expectedSeq % W : Nat) : Int) ∧ ((b.expectedSeq % W : Nat) : Int) < 8 := by
    have := Nat.mod_lt b.expectedSeq hW
    omega
  induction fuel generalizing b with
  | zero => exact List.forall_mem_singleton.mpr hslot
  | succ fuel ih =>
    rw [deliverAccesses]
    refine List.forall_mem_cons.mpr ⟨hslot,?_⟩
    split
    · refine List.forall_mem_cons.mpr ⟨hslot,?_⟩
      split
      · refine List.forall_mem_cons.mpr ⟨hslot,List.forall_mem_cons.mpr ⟨hslot,ih _ ?_⟩⟩
        have := Nat.mod_lt (b.expectedSeq + 1) hW
        simp only
        omega
      · simp
    · simp

theorem bInput_inside (hW : 0 < W) (hW8 : W ≤ 8) {p : Pkt} (hp : 0 ≤ p.seqnum) (b : BVars) :
    ∀ x ∈ bInputAccesses W p b, x.Inside W := by
  have hindex : 0 ≤ p.seqnum.tmod W ∧ p.seqnum.tmod W < 8 := by
    obtain ⟨k,hk⟩ := Int.eq_ofNat_of_zero_le hp
    have := Nat.mod_lt k hW
    rw [hk,← Int.ofNat_tmod]
    omega
  rw [bInputAccesses]
  split
  · simp
  · split
    · refine List.forall_mem_append.mpr ⟨List.forall_mem_cons.mpr ⟨hindex,?_⟩,?_⟩
      · split
        · exact List.forall_mem_singleton.mpr hindex
        · simp
      · split
        · refine List.forall_mem_cons.mpr ⟨hindex,List.forall_mem_cons.mpr ⟨hindex,?_⟩⟩
          exact deliver_inside hW hW8 _ _
        · exact deliver_inside hW hW8 _ _
    · simp

end Inside

/-- The sender is in order, and every number on its way to B is one it can have. -/
structure Indexed (W : Nat) (s : Net Vars) : Prop where
  sender : Sender W s.vars.a s.given s.timers
  toB : ∀ p ∈ s.toB, 0 ≤ p.seqnum

section Reachable
variable {W : Nat} {junk : Nat → Pkt} {pattern : Nat → Fate} {s t : Net Vars} {b : BVars}

theorem deliver_calls (fuel : Nat) (b : BVars) :
    outOf .A (deliver W fuel b).2 = [] ∧
      ∀ ts, timersAfter ts (deliver W fuel b).2 = ts := by
  induction fuel generalizing b with
  | zero => exact ⟨rfl,fun _ => rfl⟩
  | succ fuel ih =>
    rw [deliver]
    split
    · exact ih _
    · exact ⟨rfl,fun _ => rfl⟩

/-- B hands nothing to its own channel and leaves A's timers alone. -/
theorem bInput_calls_of (p : Pkt) (b : BVars) :
    outOf .A (bInput W p b).2 = [] ∧ ∀ ts, timersAfter ts (bInput W p b).2 = ts := by
  rw [bInput]
  split
  · exact ⟨rfl,fun _ => rfl⟩
  · split
    · dsimp only
      split
      · exact deliver_calls _ _
      · exact deliver_calls _ _
    · exact ⟨rfl,fun _ => rfl⟩

/-- A function of A has run. -/
theorem Indexed.sends {r : AVars × List Call} {given : List Msg} {timers : List Int}
    {toA : List Pkt} {P : Nat → Prop} (h : Indexed W s)
    (hs : Sends W s.vars.a given P r) (hsender : Sender W r.1 given (timersAfter timers r.2)) :
    Indexed W (Net.perform pattern { s with given := given, toA := toA, timers := timers }
      (⟨r.1,b⟩,r.2)) := by
  obtain ⟨hv,hgiven,-,htimers,-,hB,-⟩ := Net.perform_eq pattern
    { s with given := given, toA := toA, timers := timers } ((⟨r.1,b⟩,r.2) : Vars × List Call)
  refine ⟨?_,fun p hp => ?_⟩
  · rw [hv,hgiven,htimers]
    exact hsender
  · rw [hB] at hp
    rcases List.mem_append.mp hp with hp | hp
    · exact h.toB p hp
    · obtain ⟨p₀,hp₀,rfl | ⟨rfl,-⟩⟩ := mem_arriving hp
      · obtain ⟨k,-,rfl⟩ := hs.out _ hp₀
        exact Int.natCast_nonneg k
      · rw [corrupted_seqnum]
        decide

theorem Indexed.step (h : Indexed W s) (hst : Net.Step pattern (students W junk) s t) :
    Indexed W t := by
  cases hst with
  | @submit r m hm =>
    obtain ⟨r',hr',rfl⟩ := Option.map_eq_some_iff.mp hm
    obtain ⟨hsender,hs,-⟩ := h.sender.aOutput hr'
    exact h.sends hs hsender
  | recvA p rest hp =>
    have hrun : ∃ P, Sends W s.vars.a s.given P (aInput W p s.vars.a) ∧
        Sender W (aInput W p s.vars.a).1 s.given (timersAfter s.timers (aInput W p s.vars.a).2) := by
      rcases aInput_cases h.sender p with ⟨-,he⟩ | ⟨k,-,-,hu,he⟩
      · rw [he]
        exact ⟨_,sends_nothing rfl rfl rfl,h.sender⟩
      · rw [he]
        exact ⟨_,(h.sender.acceptAck hu).2,(h.sender.acceptAck hu).1⟩
    obtain ⟨P,hs,hsender⟩ := hrun
    exact h.sends hs hsender
  | recvB p rest hp =>
    obtain ⟨hout,htimers'⟩ := bInput_calls_of (W := W) p s.vars.b
    obtain ⟨hv,hgiven,-,htimers,-,hB,-⟩ := Net.perform_eq pattern { s with toB := rest }
      ((students W junk).bInput p s.vars)
    refine ⟨?_,fun q hq => ?_⟩
    · rw [hv,hgiven,htimers]
      change Sender W s.vars.a s.given (timersAfter s.timers (bInput W p s.vars.b).2)
      rw [htimers']
      exact h.sender
    · rw [hB] at hq
      rcases List.mem_append.mp hq with hq | hq
      · exact h.toB q (by rw [hp]; exact List.mem_cons_of_mem _ hq)
      · obtain ⟨p₀,hp₀,-⟩ := mem_arriving hq
        change p₀ ∈ outOf .A (bInput W p s.vars.b).2 at hp₀
        rw [hout] at hp₀
        cases hp₀
  | fire q before after hq =>
    obtain ⟨k,rfl,hu,he,hsender⟩ := h.sender.fire hq
    have hs := hu.resends s.given
    simp only [students,he]
    exact h.sends hs hsender

end Reachable

section Simulator
variable {T : Type} [LinearOrder T] {clock : Clock T} {W : Nat} {junk : Nat → Pkt}
variable {msgs : List Msg} {pattern : Nat → Fate} {s : Sim T Vars}

theorem indexed_of_reaches (h : Machine.Reaches (simStep clock (students W junk) msgs pattern)
    (init clock (students W junk) msgs) s) : Indexed W s.net := by
  have hinv : Timely clock s ∧ Indexed W s.net := by
    refine h.invariant (I := fun s => Timely clock s ∧ Indexed W s.net) ?_ ?_
    · rintro a b hst ⟨htimely,hindexed⟩
      obtain ⟨htb,hnet⟩ := htimely.step hst
      exact ⟨htb,hindexed.step hnet⟩
    · obtain ⟨htimely,hnet⟩ := timely_init clock (students W junk) msgs
      rw [hnet]
      exact ⟨htimely,sender_aInit W junk,fun p hp => (nomatch hp)⟩
  exact hinv.2

/-- A window of at most eight packets stays inside every array. -/
theorem indices_inside (hW : 0 < W) (hW8 : W ≤ 8)
    (h : Machine.Reaches (simStep clock (students W junk) msgs pattern)
      (init clock (students W junk) msgs) s) : ∀ x ∈ stepAccesses W s, x.Inside W := by
  have hi := indexed_of_reaches h
  have hc := hi.sender.counters hW
  rw [stepAccesses]
  split
  · simp
  · rename_i e rest hl
    split
    · exact hc.aOutput
    · exact hc.aInput hW _
    · rename_i p hty
      refine bInput_inside hW hW8 (hi.toB p ?_) _
      simp [Sim.net,hl,packetTo,hty]
    · exact timer_inside hW _ _

/-- The loop tests the mark of the packet that B waits for. -/
theorem mem_deliverAccesses (W fuel : Nat) (b : BVars) :
    .recvMarked (b.expectedSeq % W : Nat) ∈ deliverAccesses W fuel b := by
  cases fuel <;> exact List.mem_cons_self

/-- A packet goes up, and the mark of the next one is tested. -/
theorem mem_deliverAccesses_next {b : BVars} (h : Marked W b b.expectedSeq) (fuel : Nat) :
    .recvMarked ((b.expectedSeq + 1) % W : Nat) ∈ deliverAccesses W (fuel + 1) b := by
  rw [deliverAccesses]
  simp only [if_pos h.1,if_pos h.2]
  iterate 4 apply List.mem_cons_of_mem
  exact mem_deliverAccesses W fuel (pass W b)

/-- Packet 7 fills the last entry of the receiver's arrays, and the loop behind it tests the
mark of packet 8. -/
theorem Underway.outside {s : Sim ℚ Vars} (h : Underway W 7 s) (hW : 8 < W) :
    Access.recvMarked 8 ∈ stepAccesses W s := by
  obtain ⟨time,hl⟩ := h.evlist
  have hexp := h.expectedSeq
  have h7 : 7 % W = 7 := Nat.mod_eq_of_lt (by omega)
  have h8 : 8 % W = 8 := Nat.mod_eq_of_lt hW
  have hindex : ((7 : Nat) : Int).tmod W = (7 : Nat) := by rw [← Int.ofNat_tmod,h7]
  have hnew : s.vars.b.recvMarked 7 = false ∨ (s.vars.b.recvWindow 7).seqnum ≠ (7 : Nat) := by
    by_contra hcon
    simp only [ne_eq,not_or,Bool.not_eq_false,Decidable.not_not] at hcon
    refine h.receiver.waits ?_
    rw [hexp,Marked,h7]
    exact hcon
  have hwin : inWindow W (7 : Nat) s.vars.b.expectedSeq := by
    rw [hexp]
    exact Or.inl ⟨Int.le_refl _,by omega⟩
  have hstored : Marked W (store 7 (sentPkt s.given 7) s.vars.b)
      (store 7 (sentPkt s.given 7) s.vars.b).expectedSeq := by
    change Marked W (store 7 (sentPkt s.given 7) s.vars.b) s.vars.b.expectedSeq
    rw [hexp]
    have hmark : Marked W (store (7 % W) (sentPkt s.given 7) s.vars.b) 7 :=
      (marked_store 7 7).mpr (Or.inr rfl)
    rwa [h7] at hmark
  have hnext := mem_deliverAccesses_next hstored (W - 1)
  change Access.recvMarked ((s.vars.b.expectedSeq + 1) % W : Nat) ∈ _ at hnext
  rw [hexp,h8,Nat.sub_add_cancel (by omega)] at hnext
  have hmem : Access.recvMarked 8 ∈ bInputAccesses W (sentPkt s.given 7) s.vars.b := by
    rw [bInputAccesses,sentPkt_seqnum,if_neg (by simp [sentPkt]),if_pos hwin]
    simp only [hindex,Int.toNat_natCast,if_pos hnew]
    exact List.mem_append_right _ (List.mem_cons_of_mem _ (List.mem_cons_of_mem _ hnext))
  rw [stepAccesses,hl]
  exact hmem

/-- The arrays are never left exactly when the window is not larger than the receiver's. -/
theorem indices_inside_iff (hW : 0 < W) :
    (∀ (T : Type) [LinearOrder T] (clock : Clock T) (junk : Nat → Pkt) (msgs : List Msg)
      (pattern : Nat → Fate) (s : Sim T Vars),
      Machine.Reaches (simStep clock (students W junk) msgs pattern)
        (init clock (students W junk) msgs) s → ∀ x ∈ stepAccesses W s, x.Inside W) ↔ W ≤ 8 := by
  constructor
  · intro hall
    by_contra hW8
    have hlen : 7 + 1 < (List.replicate 9 (default : Msg)).length := by decide
    obtain ⟨s,hr,hs⟩ := reaches_underway (fun _ => default) hW hlen
    have hin := hall ℚ slowClock _ _ _ s hr _ (hs.outside (Nat.not_le.mp hW8))
    exact absurd hin.2 (by decide)
  · intro hW8 T _ clock junk msgs pattern s h
    exact indices_inside hW hW8 h

/-- Packet 7 comes to B through a window of eight. -/
theorem indices_inside_iff_eight : ∃ s : Sim ℚ Vars, Underway 8 7 s ∧
    ∀ x ∈ stepAccesses 8 s, x.Inside 8 := by
  have hlen : 7 + 1 < (List.replicate 9 (default : Msg)).length := by decide
  obtain ⟨s,hr,hs⟩ := reaches_underway (W := 8) (fun _ => default) (by decide) hlen
  exact ⟨s,hs,(indices_inside_iff (by decide)).mpr (Nat.le_refl 8) ℚ slowClock _ _ _ s hr⟩

/-- Packet 7 comes to B through a window of nine. -/
theorem not_indices_inside_always : ¬∀ (W : Nat), 1 ≤ W → ∀ (lambda : ℚ) (hl : 0 < lambda)
    (junk : Nat → Pkt) (msgs : List Msg) (pattern : Nat → Fate) (s : Sim ℚ Vars),
    Machine.Reaches (simStep (exactClock lambda hl) (students W junk) msgs pattern)
      (init (exactClock lambda hl) (students W junk) msgs) s →
    ∀ x ∈ stepAccesses W s, x.Inside W := by
  intro hall
  have hlen : 7 + 1 < (List.replicate 9 (default : Msg)).length := by decide
  obtain ⟨s,hr,hs⟩ := reaches_underway (W := 9) (fun _ => default) (by decide) hlen
  have hin := hall 9 (by decide) 100 (by norm_num) _ _ _ s hr _ (hs.outside (by decide))
  exact absurd hin.2 (by decide)

end Simulator

end NetworkLab.Sr
