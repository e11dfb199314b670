import NetworkLab.Sr.Recovery
import NetworkLab.Rdt.Handed
set_option autoImplicit false

/-! A run in which nothing is lost: the channel is a pipeline, no timer goes off, and every
packet is sent once. -/

namespace NetworkLab.Sr
open Rdt Machine TimedList

/-- Packets `i`, ..., `i+n-1` are sent, each with its timer. -/
def sendCalls (given : List Msg) (i n : Nat) : List Call :=
  (List.range' i n).flatMap fun k => [.tolayer3 .A (sentPkt given k),.starttimeR k]

section Calls
variable {W : Nat} {v : AVars} {given : List Msg} {timers : List Int}

theorem sendCalls_succ (i n : Nat) : sendCalls given i (n+1) =
    .tolayer3 .A (sentPkt given i) :: .starttimeR i :: sendCalls given (i+1) n := by
  simp [sendCalls,List.range'_succ]

@[simp] theorem sendCalls_zero (i : Nat) : sendCalls given i 0 = [] := rfl

theorem outOf_sendCalls (i n : Nat) :
    outOf .A (sendCalls given i n) = (List.range' i n).map (sentPkt given) ∧
    outOf .B (sendCalls given i n) = [] ∧ takenOf (sendCalls given i n) = [] := by
  induction n generalizing i with
  | zero => exact ⟨rfl,rfl,rfl⟩
  | succ n ih =>
    obtain ⟨h₁,h₂,h₃⟩ := ih (i+1)
    rw [sendCalls_succ,List.range'_succ]
    simp [h₁,h₂,h₃]

theorem timersAfter_sendCalls (ts : List Int) (i n : Nat) :
    timersAfter ts (sendCalls given i n) = ts ++ (List.range' i n).map Nat.cast := by
  induction n generalizing i ts with
  | zero => simp
  | succ n ih =>
    rw [sendCalls_succ]
    change timersAfter (ts ++ [(i : Int)]) (sendCalls given (i+1) n) = _
    rw [ih,List.range'_succ]
    simp

theorem start_sendCalls {i n : Nat} {q : Int} (h : .starttimeR q ∈ sendCalls given i n) :
    ∃ k : Nat, q = k ∧ .tolayer3 .A (sentPkt given k) ∈ sendCalls given i n := by
  obtain ⟨k,hk,hq⟩ := List.mem_flatMap.mp h
  refine ⟨k,by simpa using hq,List.mem_flatMap.mpr ⟨k,hk,by simp⟩⟩

/-- The loop sends the next packets in order. -/
theorem sendBuffered_calls (hq : Queue v given) (fuel : Nat) :
    ∃ n, (sendBuffered W fuel v).1.nextseqnum = v.nextseqnum + n ∧
      (sendBuffered W fuel v).2 = sendCalls given v.nextseqnum n := by
  induction fuel generalizing v with
  | zero => exact ⟨0,rfl,rfl⟩
  | succ fuel ih =>
    by_cases hgo : 0 < v.msgNum ∧ v.nextseqnum < v.base + W
    · obtain ⟨hget,hnext⟩ := hq.next (W := W) hgo.1
      obtain ⟨n,h₁,h₂⟩ := ih hnext
      refine ⟨n+1,?_,?_⟩
      · simp only [sendBuffered,if_pos hgo,h₁]
        simp only [sendPacket,dropBuffered]
        omega
      · simp only [sendBuffered,if_pos hgo,h₂,sendCalls_succ,sentPkt,hget]
        rfl
    · rw [sendBuffered_of_not hgo]
      exact ⟨0,rfl,rfl⟩

theorem aOutput_calls (h : Sender W v given timers) {m : Msg} {r : AVars × List Call}
    (hr : aOutput W m v = some r) : ∃ n, r.1.nextseqnum = v.nextseqnum + n ∧
      r.2 = sendCalls (given ++ [m]) v.nextseqnum n := by
  unfold aOutput at hr
  split at hr
  · rename_i hlt
    obtain rfl := Option.some.inj hr
    have hc := h.queue.count
    have hm := h.full
    have hget : (given ++ [m]).getD v.nextseqnum default = m := by
      have : v.nextseqnum = given.length := by omega
      simp [this]
    refine ⟨1,rfl,?_⟩
    rw [sendCalls_succ,sentPkt,hget]
    rfl
  · split at hr
    · obtain rfl := Option.some.inj hr
      exact ⟨0,rfl,rfl⟩
    · cases hr

theorem acceptAck_calls (h : Sender W v given timers) {k : Nat} (hk : Unacked W v k) :
    ∃ n, (acceptAck W k v).1.nextseqnum = v.nextseqnum + n ∧
      (acceptAck W k v).2 = .stoptimeR k :: sendCalls given v.nextseqnum n := by
  obtain ⟨-,-,hframe,-,-⟩ := slide_spec (h.ring.markAcked hk)
    (Nat.le_refl (markAcked (k % W) v).pktnum)
  change slide W v.pktnum (markAcked (k % W) v) = _ at hframe
  have hq := h.queue
  unfold acceptAck
  generalize slide W v.pktnum (markAcked (k % W) v) = s at *
  have hn : s.nextseqnum = v.nextseqnum := by rw [hframe]; rfl
  have hqs : Queue s given := by
    rw [hframe]
    exact ⟨hq.count,hq.buffered⟩
  obtain ⟨n,h₁,h₂⟩ := sendBuffered_calls (W := W) hqs s.msgNum
  rw [hn] at h₁ h₂
  exact ⟨n,h₁,congrArg _ h₂⟩

end Calls

/-- Between A and B are the packets that B waits for and the acknowledgements that A waits
for, each once and in order. -/
structure Pipeline (W : Nat) (s : Net Vars) : Prop where
  toB : s.toB = (List.range' s.vars.b.expectedSeq
    (s.vars.a.nextseqnum - s.vars.b.expectedSeq)).map (sentPkt s.given)
  toA : s.toA = (List.range' s.vars.a.base
    (s.vars.b.expectedSeq - s.vars.a.base)).map fun k : Nat => ackPkt k
  timers : s.timers = (List.range' s.vars.a.base
    (s.vars.a.nextseqnum - s.vars.a.base)).map Nat.cast
  empty : ∀ k, ¬Marked W s.vars.b k
  data : sentBy .A s.handed = (List.range s.vars.a.nextseqnum).map (sentPkt s.given)
  acks : sentBy .B s.handed = (List.range s.vars.b.expectedSeq).map fun k : Nat => ackPkt k

theorem pipeline_init (W : Nat) (junk : Nat → Pkt) :
    Pipeline W (Net.init (students W junk)) := by
  constructor <;> simp [Net.init,students,aInit,bInit,Marked]

section Steps
variable {W N : Nat} {s : Net Vars}

theorem range'_grow {e n d : Nat} (h : e ≤ n) :
    List.range' e (n - e) ++ List.range' n d = List.range' e (n + d - e) := by
  have := List.range'_append_1 (s := e) (m := n - e) (n := d)
  rw [show e + (n - e) = n by omega] at this
  rw [this]
  congr 1
  omega

theorem map_sentPkt_append {given : List Msg} {ks : List Nat} (h : ∀ k ∈ ks, k < given.length)
    (l : List Msg) (hl : l = [] ∨ ∃ m, l = [m]) :
    ks.map (sentPkt (given ++ l)) = ks.map (sentPkt given) := by
  refine List.map_congr_left fun k hk => ?_
  rcases hl with rfl | ⟨m,rfl⟩
  · rw [List.append_nil]
  · exact sentPkt_append (h k hk) m

/-- A sends the next packets; layer 5 may have given one more message, and an
acknowledgement may have stopped the first timer. -/
theorem Pipeline.sends (h : Pipeline W s) (hinv : Inv W N s) (l : List Msg)
    (hl : l = [] ∨ ∃ m, l = [m]) {toA : List Pkt} (timers : List Int) {v : AVars} {n : Nat}
    (hn : v.nextseqnum = s.vars.a.nextseqnum + n) (hbase : v.base ≤ s.vars.a.nextseqnum)
    (htoA : toA = (List.range' v.base (s.vars.b.expectedSeq - v.base)).map fun k : Nat => ackPkt k)
    (htimers : timers =
      (List.range' v.base (s.vars.a.nextseqnum - v.base)).map Nat.cast)
    {cs : List Call} (hcs : timersAfter s.timers cs = timersAfter timers
      (sendCalls (s.given ++ l) s.vars.a.nextseqnum n))
    (hA : outOf .A cs = outOf .A (sendCalls (s.given ++ l) s.vars.a.nextseqnum n))
    (hB : outOf .B cs = []) :
    Pipeline W (Net.perform intact { s with given := s.given ++ l, toA := toA }
      (⟨v,s.vars.b⟩,cs)) := by
  obtain ⟨hv,hgiven,-,htime,hhanded,htoB,htoA'⟩ := Net.perform_eq intact
    { s with given := s.given ++ l, toA := toA } ((⟨v,s.vars.b⟩,cs) : Vars × List Call)
  generalize Net.perform intact _ _ = t at *
  simp only at *
  have hlen := hinv.next_le
  have he := hinv.receiver.expected_le
  rw [arriving_intact] at htoB htoA'
  rw [hB,List.append_nil] at htoA'
  rw [hA,(outOf_sendCalls _ _).1] at htoB
  have hsent := congrArg (sentBy .A) hhanded
  rw [sentBy_append,sentBy_fated,hA,(outOf_sendCalls _ _).1] at hsent
  have hacks := congrArg (sentBy .B) hhanded
  rw [sentBy_append,sentBy_fated,hB,List.append_nil] at hacks
  rw [hcs,timersAfter_sendCalls,htimers] at htime
  refine ⟨?_,?_,?_,?_,?_,?_⟩
  · have hold : (List.range' s.vars.b.expectedSeq
        (s.vars.a.nextseqnum - s.vars.b.expectedSeq)).map (sentPkt (s.given ++ l)) = s.toB := by
      rw [h.toB]
      exact map_sentPkt_append (fun k hk => by rw [List.mem_range'_1] at hk; omega) l hl
    rw [htoB,hv,hgiven,← hold]
    simp only [hn]
    rw [← List.map_append,range'_grow he]
  · rw [htoA',htoA,hv]
  · rw [htime,hv,← List.map_append,range'_grow hbase]
    simp only [hn]
  · rw [hv]
    exact h.empty
  · have hall := range'_grow (d := n) (Nat.zero_le s.vars.a.nextseqnum)
    simp only [Nat.sub_zero] at hall
    have hold : (List.range' 0 s.vars.a.nextseqnum).map (sentPkt (s.given ++ l)) =
        (List.range' 0 s.vars.a.nextseqnum).map (sentPkt s.given) :=
      map_sentPkt_append (fun k hk => by rw [List.mem_range'_1] at hk; omega) l hl
    rw [hsent,hv,hgiven,h.data]
    simp only [hn,List.range_eq_range']
    rw [← hold,← List.map_append,hall]
  · rw [hacks,hv]
    exact h.acks

theorem Pipeline.submit (h : Pipeline W s) (hinv : Inv W N s) {m : Msg} {r : AVars × List Call}
    (hr : aOutput W m s.vars.a = some r) :
    Pipeline W (Net.perform intact { s with given := s.given ++ [m] } (⟨r.1,s.vars.b⟩,r.2)) := by
  obtain ⟨n,hn,hcalls⟩ := aOutput_calls hinv.sender hr
  have hb := (hinv.sender.aOutput hr).2.2
  have hle := hinv.sender.ring.base_le
  refine h.sends hinv [m] (Or.inr ⟨m,rfl⟩) _ hn (by omega) ?_ ?_ (by rw [hcalls]) (by rw [hcalls])
    (by rw [hcalls]; exact (outOf_sendCalls _ _).2.1)
  · rw [hb]
    exact h.toA
  · rw [hb]
    exact h.timers

/-- The acknowledgement at the head is that of the first packet of the window. -/
theorem Pipeline.ack (h : Pipeline W s) (hinv : Inv W N s) {p : Pkt} {rest : List Pkt}
    (hp : s.toA = p :: rest) :
    p = ackPkt s.vars.a.base ∧ Unacked W s.vars.a s.vars.a.base ∧
    aInput W p s.vars.a = acceptAck W s.vars.a.base s.vars.a ∧
    (acceptAck W s.vars.a.base s.vars.a).1.base = s.vars.a.base + 1 ∧
    Pipeline W (Net.perform intact { s with toA := rest }
      (⟨(aInput W p s.vars.a).1,s.vars.b⟩,(aInput W p s.vars.a).2)) := by
  have hle := hinv.receiver.expected_le
  have htoA := h.toA
  rw [hp] at htoA
  have hlt : s.vars.a.base < s.vars.b.expectedSeq := by
    by_contra hge
    rw [show s.vars.b.expectedSeq - s.vars.a.base = 0 by omega] at htoA
    cases htoA
  rw [show s.vars.b.expectedSeq - s.vars.a.base =
    (s.vars.b.expectedSeq - (s.vars.a.base+1)) + 1 by omega,List.range'_succ,List.map_cons,
    List.cons.injEq] at htoA
  obtain ⟨rfl,hrest⟩ := htoA
  have hu := hinv.sender.head (by omega)
  obtain ⟨hsender,hs⟩ := hinv.sender.acceptAck hu
  obtain ⟨n,hn,hcalls⟩ := acceptAck_calls hinv.sender hu
  have hwait : ∀ k, s.vars.a.base < k → k < s.vars.a.nextseqnum → Unacked W s.vars.a k := by
    intro k hk hkn
    have hmem : (k : Int) ∈ s.timers := by
      rw [h.timers]
      exact List.mem_map.mpr ⟨k,List.mem_range'_1.mpr (by omega),rfl⟩
    obtain ⟨i,hi,hu⟩ := (hinv.sender.timed.mem _).mp hmem
    exact (Int.ofNat.inj hi) ▸ hu
  -- the window moves by one packet, because the next one still waits
  have hbase : (acceptAck W s.vars.a.base s.vars.a).1.base = s.vars.a.base + 1 := by
    have hmoved := (hinv.sender.acceptAck_cases hu).resolve_right fun hc => hc.2.1 rfl
    have hring := hsender.ring.base_le
    refine Nat.le_antisymm ?_ hmoved
    by_contra hlt'
    have hnot : ¬Unacked W (acceptAck W s.vars.a.base s.vars.a).1 (s.vars.a.base + 1) :=
      fun hc => hlt' hc.1
    rw [hs.unacked] at hnot
    by_cases hb : s.vars.a.base + 1 < s.vars.a.nextseqnum
    · exact hnot (Or.inl ⟨hwait _ (by omega) hb,by omega⟩)
    · exact hnot (Or.inr ⟨by omega,by omega⟩)
  have he : aInput W (ackPkt s.vars.a.base) s.vars.a = acceptAck W s.vars.a.base s.vars.a := by
    rcases aInput_cases hinv.sender (ackPkt s.vars.a.base) with ⟨hnot,-⟩ | ⟨k,-,hk,-,he⟩
    · exact absurd hu (hnot _ (checkCorrupted_ackPkt _) rfl)
    · rw [ackPkt_acknum] at hk
      rw [he,Int.ofNat.inj hk]
  refine ⟨rfl,hu,he,hbase,?_⟩
  rw [he]
  have hgiven : s.given = s.given ++ [] := (List.append_nil _).symm
  have hnet : ({ s with toA := rest } : Net Vars) =
      { s with given := s.given ++ [], toA := rest } := by rw [← hgiven]
  rw [hnet]
  refine h.sends hinv [] (Or.inl rfl)
    ((List.range' (acceptAck W s.vars.a.base s.vars.a).1.base
      (s.vars.a.nextseqnum - (acceptAck W s.vars.a.base s.vars.a).1.base)).map Nat.cast)
    hn (by omega) (by rw [hbase]; exact hrest) rfl ?_ ?_ ?_
  · rw [hcalls,← hgiven,hbase]
    change timersAfter (s.timers.erase (s.vars.a.base : Int)) _ = _
    rw [h.timers,show s.vars.a.nextseqnum - s.vars.a.base =
      (s.vars.a.nextseqnum - (s.vars.a.base+1)) + 1 by omega,List.range'_succ,List.map_cons,
      List.erase_cons_head]
  · rw [hcalls,← hgiven]
    rfl
  · rw [hcalls]
    exact (outOf_sendCalls _ _).2.1

/-- The data packet at the head is the one that B waits for. -/
theorem Pipeline.deliver (h : Pipeline W s) (hinv : Inv W N s) (hW : 0 < W) (hW8 : W ≤ 8)
    {p : Pkt} {rest : List Pkt} (hp : s.toB = p :: rest) :
    p = sentPkt s.given s.vars.b.expectedSeq ∧
    (∃ ds : List Payload, (bInput W p s.vars.b).2 =
      .tolayer3 .B (ackPkt s.vars.b.expectedSeq) :: ds.map Call.tolayer5) ∧
    (bInput W p s.vars.b).1.expectedSeq = s.vars.b.expectedSeq + 1 ∧
    Pipeline W (Net.perform intact { s with toB := rest }
      (⟨s.vars.a,(bInput W p s.vars.b).1⟩,(bInput W p s.vars.b).2)) := by
  have htoB := h.toB
  rw [hp] at htoB
  have hlt : s.vars.b.expectedSeq < s.vars.a.nextseqnum := by
    by_contra hge
    rw [show s.vars.a.nextseqnum - s.vars.b.expectedSeq = 0 by omega] at htoB
    cases htoB
  rw [show s.vars.a.nextseqnum - s.vars.b.expectedSeq =
    (s.vars.a.nextseqnum - (s.vars.b.expectedSeq+1)) + 1 by omega,List.range'_succ,List.map_cons,
    List.cons.injEq] at htoB
  obtain ⟨rfl,hrest⟩ := htoB
  have hacc : Accepts W s.vars.b s.given s.vars.a.nextseqnum s.taken s.vars.b.expectedSeq
      (bInput W (sentPkt s.given s.vars.b.expectedSeq) s.vars.b) := by
    rcases hinv.recvB_cases hW hW8 (p := sentPkt s.given s.vars.b.expectedSeq) (by simp [hp]) with
      ⟨hf,-⟩ | ⟨hf,-⟩ | ⟨k,-,hk,⟨hm,-⟩ | ⟨-,hr⟩⟩
    · exact absurd hf.1 (by simp)
    · exact absurd hf.1 (by simp)
    · exact absurd hm (h.empty k)
    · have hke : s.vars.b.expectedSeq = k := Int.ofNat.inj (congrArg Pkt.seqnum hk)
      exact hke ▸ hr
  have hle := hacc.expected_le
  have hwaits := hacc.receiver.waits
  have hhas := hacc.has
  have hcalls := hacc.calls
  have hmarked := hacc.marked
  have houtA := hacc.outA
  have houtB := hacc.outB
  have htimers := hacc.timers s.timers
  generalize bInput W (sentPkt s.given s.vars.b.expectedSeq) s.vars.b = r at *
  -- B waits for the next packet, because it has nothing in its slots
  have hnext : r.1.expectedSeq = s.vars.b.expectedSeq + 1 := by
    refine Nat.le_antisymm ?_ ?_
    · by_contra hlt'
      rcases (hhas (s.vars.b.expectedSeq + 1)).mp (Or.inl (by omega)) with (hc | hm) | hc
      · omega
      · exact h.empty _ hm
      · omega
    · rcases (hhas s.vars.b.expectedSeq).mpr (Or.inr rfl) with hc | hm
      · exact hc
      · by_contra hlt'
        rw [show r.1.expectedSeq = s.vars.b.expectedSeq by omega] at hwaits
        exact hwaits hm
  refine ⟨rfl,⟨_,hcalls⟩,hnext,?_⟩
  obtain ⟨hv,hgiven,-,htime,hhanded,hB,hA⟩ := Net.perform_eq intact
    { s with toB := rest } ((⟨s.vars.a,r.1⟩,r.2) : Vars × List Call)
  generalize Net.perform intact _ _ = t at *
  simp only at *
  rw [arriving_intact] at hA hB
  rw [houtA,List.append_nil] at hB
  rw [houtB] at hA
  have hdata := congrArg (sentBy .A) hhanded
  rw [sentBy_append,sentBy_fated,houtA,List.append_nil] at hdata
  have hacks := congrArg (sentBy .B) hhanded
  rw [sentBy_append,sentBy_fated,houtB] at hacks
  refine ⟨?_,?_,?_,?_,?_,?_⟩
  · rw [hB,hv,hgiven]
    simp only [hnext]
    exact hrest
  · have hgrow := range'_grow (d := 1) hinv.base_le
    rw [hA,hv,h.toA]
    simp only [hnext]
    rw [← hgrow,List.map_append]
    rfl
  · rw [htime,hv,htimers]
    exact h.timers
  · rw [hv]
    intro k hk
    rcases ((hmarked k).mp hk).1 with ⟨hm,-⟩ | rfl
    · exact h.empty k hm
    · exact ((hmarked _).mp hk).2 ⟨Nat.le_refl _,by omega⟩
  · rw [hdata,hv,hgiven]
    exact h.data
  · rw [hacks,hv,h.acks]
    simp only [hnext,List.range_succ,List.map_append]
    rfl

end Steps

section Timing
variable {T : Type} [LinearOrder T] {clock : Clock T} {W : Nat} {junk : Nat → Pkt}
variable {msgs : List Msg} {s t : Sim T Vars}

/-- Something comes before the timer `y` that makes A stop it: the packet, early enough for
its acknowledgement, or the acknowledgement. -/
def Forestalled (clock : Clock T) (l : List (Event T)) (y : Event T) (q : Int) : Prop :=
  ∃ x ∈ l, (∃ p, packetTo .B x = some p ∧ p.seqnum = q ∧ clock.arrival x.evtime < y.evtime) ∨
    ∃ p, packetTo .A x = some p ∧ p.acknum = q ∧ x.evtime < y.evtime

def Punctual (clock : Clock T) (s : Sim T Vars) : Prop :=
  ∀ y ∈ s.evlist, ∀ q, timerOf y = some q → Forestalled clock s.evlist y q

/-- A packet that is sent at the time `u` is acknowledged before its timer goes off. -/
def RoundTrip (clock : Clock T) (u : T) : Prop :=
  clock.arrival (clock.arrival u) < clock.expiry u

/-- A state of a run in which nothing was lost. -/
structure Prompt (clock : Clock T) (W : Nat) (msgs : List Msg) (s : Sim T Vars) : Prop
    extends Sound clock W msgs s where
  pipeline : Pipeline W s.net
  punctual : Punctual clock s

/-- No timer is at the head of the list. -/
theorem Punctual.head (h : Punctual clock s) (hs : Timely clock s) {e : Event T}
    {rest : List (Event T)} (hl : s.evlist = e :: rest) (q : Int) : timerOf e ≠ some q := by
  intro hq
  obtain ⟨hfirst,-⟩ := List.pairwise_cons.mp (hl ▸ hs.ordered)
  obtain ⟨x,hx,hcase⟩ := h e (by simp [hl]) q hq
  have hle : e.evtime ≤ x.evtime := by
    rw [hl] at hx
    rcases List.mem_cons.mp hx with rfl | hx
    · exact le_refl _
    · exact hfirst x hx
  rcases hcase with ⟨p,-,-,hlt⟩ | ⟨p,-,-,hlt⟩
  · exact absurd (hle.trans (clock.le_arrival _)) (not_le_of_gt hlt)
  · exact absurd hle (not_le_of_gt hlt)

/-- A round that sends packets with their timers: what was in the list before it, other
than its own event, still forestalls its timer. -/
theorem Punctual.sends (h : Punctual clock s) {e : Event T} {rest : List (Event T)}
    (hl : s.evlist = e :: rest) (s' : Sim T Vars) (hround : RoundTrip clock s'.time_)
    (hsub : ∀ x ∈ rest, x ∈ s'.evlist) (hback : ∀ y ∈ s'.evlist, (timerOf y).isSome → y ∈ rest)
    {r : Vars × List Call} (hstart : ∀ q, .starttimeR q ∈ r.2 →
      ∃ p, p.seqnum = q ∧ .tolayer3 .A p ∈ r.2)
    (hown : ∀ y ∈ (perform clock intact s' r).evlist, ∀ q, timerOf y = some q → y ∈ rest →
      ((∃ p, packetTo .B e = some p ∧ p.seqnum = q ∧ clock.arrival e.evtime < y.evtime) ∨
        ∃ p, packetTo .A e = some p ∧ p.acknum = q ∧ e.evtime < y.evtime) →
      Forestalled clock (perform clock intact s' r).evlist y q) :
    Punctual clock (perform clock intact s' r) := by
  intro y hy q hq
  rcases mem_perform clock hy with hold | ⟨c,hc,hnew⟩
  · have hyrest := hback y hold (by simp [hq])
    obtain ⟨x,hx,hcase⟩ := h y (by simp [hl,hyrest]) q hq
    rw [hl] at hx
    rcases List.mem_cons.mp hx with rfl | hx
    · exact hown y hy q hq hyrest hcase
    · refine ⟨x,perform_keeps clock (hsub x hx) (fun k => ?_) r,hcase⟩
      rcases hcase with ⟨p,hp,-⟩ | ⟨p,hp,-⟩
      · by_contra hk
        rw [isTimer_packetTo .B (by simpa using hk)] at hp
        cases hp
      · by_contra hk
        rw [isTimer_packetTo .A (by simpa using hk)] at hp
        cases hp
  · cases c with
    | tolayer3 d p =>
      obtain rfl := Option.some.inj hnew
      simp [timerOf] at hq
    | tolayer5 d => cases hnew
    | starttimeR k =>
      obtain rfl := Option.some.inj hnew
      obtain rfl : k = q := by simpa [timerOf] using hq
      obtain ⟨p,hp,hmem⟩ := hstart k hc
      exact ⟨_,perform_spawns clock hmem,Or.inl ⟨p,by simp [packetTo,Entity.other],hp,hround⟩⟩
    | stoptimeR k => cases hnew

/-- How far layer 5 and the two ends have come. Every round of a run that loses nothing
takes one of them on. -/
def progress (s : Sim T Vars) : Nat :=
  s.given.length + s.vars.b.expectedSeq + s.vars.a.base

theorem Prompt.arrival_round (h : Prompt clock W msgs s) {e : Event T} {rest : List (Event T)}
    (hround : RoundTrip clock e.evtime) (hl : s.evlist = e :: rest) (hty : e.evtype = .fromLayer5)
    {r : AVars × List Call} (hr : aOutput W (msgs.getD s.given.length default) s.vars.a = some r)
    (ht : t = perform clock intact
      { generateNextArrival clock msgs { s with evlist := rest, time_ := e.evtime } with
        given := s.given ++ [msgs.getD s.given.length default] } (⟨r.1,s.vars.b⟩,r.2)) :
    Pipeline W t.net ∧ Punctual clock t ∧ progress t = progress s + 1 := by
  obtain ⟨hgen,hnet⟩ := (h.timely.advance hl).generateNextArrival msgs
  have hsub : ∀ x ∈ rest, x ∈ (generateNextArrival clock msgs
      { s with evlist := rest, time_ := e.evtime }).evlist := by
    intro x hx
    unfold generateNextArrival
    split
    · exact hx
    · exact (mem_insertTimed Event.evtime).mpr (Or.inr hx)
  have hback : ∀ y ∈ (generateNextArrival clock msgs
      { s with evlist := rest, time_ := e.evtime }).evlist, (timerOf y).isSome → y ∈ rest := by
    intro y hy hq
    unfold generateNextArrival at hy
    split at hy
    · exact hy
    · rcases (mem_insertTimed Event.evtime).mp hy with rfl | hy
      · cases hq
      · exact hy
  obtain ⟨n,-,hcalls⟩ := aOutput_calls h.inv.sender hr
  have hbase := (h.inv.sender.aOutput hr).2.2
  have hpipe := h.pipeline.submit h.inv hr
  have htime : (generateNextArrival clock msgs
      { s with evlist := rest, time_ := e.evtime }).time_ = e.evtime := by
    unfold generateNextArrival
    split <;> rfl
  generalize generateNextArrival clock msgs { s with evlist := rest, time_ := e.evtime } = s' at *
  have hgiven : Timely clock
      { s' with given := s.given ++ [msgs.getD s.given.length default] } :=
    ⟨hgen.ordered,hgen.later,hgen.packet,hgen.timer⟩
  have hs' : Sim.net { s' with given := s.given ++ [msgs.getD s.given.length default] } =
      { s.net with given := s.given ++ [msgs.getD s.given.length default] } := by
    have hadv : Sim.net { s with evlist := rest, time_ := e.evtime } = s.net := by
      simp [Sim.net,hl,packetTo,timerOf,hty]
    rw [← hadv,← hnet]
    rfl
  refine ⟨?_,?_,?_⟩
  · rw [ht,(hgiven.perform intact _).2.1,hs']
    exact hpipe
  · rw [ht]
    refine h.punctual.sends hl
      { s' with given := s.given ++ [msgs.getD s.given.length default] } (htime ▸ hround) hsub
      hback (fun q hq => ?_) fun y _ q _ _ hcase => ?_
    · rw [hcalls] at hq ⊢
      obtain ⟨k,rfl,hk⟩ := start_sendCalls hq
      exact ⟨_,sentPkt_seqnum _ _,hk⟩
    · simp [packetTo,hty] at hcase
  · unfold progress
    rw [ht,perform_vars,(perform_frame clock intact _ _).2.2]
    simp only [List.length_append,List.length_singleton]
    change r.1.base = s.vars.a.base at hbase
    omega

theorem Prompt.ack_round (h : Prompt clock W msgs s) {e : Event T} {rest : List (Event T)}
    (hround : RoundTrip clock e.evtime) (hl : s.evlist = e :: rest) {p : Pkt}
    (hty : e.evtype = .fromLayer3 .A p)
    (ht : t = perform clock intact { s with evlist := rest, time_ := e.evtime }
      (⟨(aInput W p s.vars.a).1,s.vars.b⟩,(aInput W p s.vars.a).2)) :
    Pipeline W t.net ∧ Punctual clock t ∧ progress t = progress s + 1 := by
  have hhead : s.net.toA = p :: rest.filterMap (packetTo .A) := by
    simp [Sim.net,hl,packetTo,hty]
  obtain ⟨hp,hu,he,hbase,hpipe⟩ := h.pipeline.ack h.inv hhead
  change aInput W p s.vars.a = acceptAck W s.vars.a.base s.vars.a at he
  change Unacked W s.vars.a s.vars.a.base at hu
  change p = ackPkt s.vars.a.base at hp
  obtain ⟨n,-,hcalls⟩ := acceptAck_calls h.inv.sender hu
  change (acceptAck W s.vars.a.base s.vars.a).2 = _ at hcalls
  change (acceptAck W s.vars.a.base s.vars.a).1.base = s.vars.a.base + 1 at hbase
  have hnet : t.net = Net.perform intact { s.net with toA := rest.filterMap (packetTo .A) }
      (⟨(aInput W p s.vars.a).1,s.vars.b⟩,(aInput W p s.vars.a).2) := by
    have hadv : Sim.net { s with evlist := rest, time_ := e.evtime } =
        { s.net with toA := rest.filterMap (packetTo .A) } := by
      simp [Sim.net,hl,packetTo,timerOf,hty]
    rw [ht,((h.timely.advance hl).perform intact _).2.1,hadv]
  have hpipe' : Pipeline W t.net := hnet ▸ hpipe
  refine ⟨hpipe',?_,?_⟩
  swap
  · unfold progress
    rw [ht,perform_vars,(perform_frame clock intact _ _).2.2]
    simp only [he,hbase]
    omega
  have hpast : ∀ q ∈ t.net.timers, q ≠ s.vars.a.base := by
    rintro q hq rfl
    have hv : t.net.vars.a = (acceptAck W s.vars.a.base s.vars.a).1 := by
      rw [hnet,(Net.perform_eq _ _ _).1,he]
    rw [hpipe'.timers,hv] at hq
    obtain ⟨k,hk,hkb⟩ := List.mem_map.mp hq
    rw [List.mem_range'_1] at hk
    have := Int.ofNat.inj hkb
    omega
  rw [ht] at hpast ⊢
  refine h.punctual.sends hl _ hround (fun _ hx => hx) (fun _ hy _ => hy) (fun q hq => ?_)
    fun y hy q hq _ hcase => ?_
  · simp only [he,hcalls,List.mem_cons,reduceCtorEq,false_or] at hq ⊢
    obtain ⟨k,rfl,hk⟩ := start_sendCalls hq
    exact ⟨_,sentPkt_seqnum _ _,hk⟩
  · exfalso
    refine hpast q (List.mem_filterMap.mpr ⟨y,hy,hq⟩) ?_
    rcases hcase with ⟨p',hp',-⟩ | ⟨p',hp',hack,-⟩
    · simp [packetTo,hty] at hp'
    · obtain rfl : p = p' := by simpa [packetTo,hty] using hp'
      rw [← hack,hp,ackPkt_acknum]

theorem Prompt.data_round (h : Prompt clock W msgs s) (hW : 0 < W) (hW8 : W ≤ 8) {e : Event T}
    {rest : List (Event T)} (hround : RoundTrip clock e.evtime) (hl : s.evlist = e :: rest)
    {p : Pkt} (hty : e.evtype = .fromLayer3 .B p)
    (ht : t = perform clock intact { s with evlist := rest, time_ := e.evtime }
      (⟨s.vars.a,(bInput W p s.vars.b).1⟩,(bInput W p s.vars.b).2)) :
    Pipeline W t.net ∧ Punctual clock t ∧ progress t = progress s + 1 := by
  have hhead : s.net.toB = p :: rest.filterMap (packetTo .B) := by
    simp [Sim.net,hl,packetTo,hty]
  obtain ⟨hp,⟨ds,hcalls⟩,hexp,hpipe⟩ := h.pipeline.deliver h.inv hW hW8 hhead
  change p = sentPkt s.given s.vars.b.expectedSeq at hp
  change (bInput W p s.vars.b).2 = .tolayer3 .B (ackPkt s.vars.b.expectedSeq) :: _ at hcalls
  refine ⟨?_,?_,?_⟩
  · have hadv : Sim.net { s with evlist := rest, time_ := e.evtime } =
        { s.net with toB := rest.filterMap (packetTo .B) } := by
      simp [Sim.net,hl,packetTo,timerOf,hty]
    rw [ht,((h.timely.advance hl).perform intact _).2.1,hadv]
    exact hpipe
  · rw [ht]
    refine h.punctual.sends hl _ hround (fun _ hx => hx) (fun _ hy _ => hy) (fun q hq => ?_)
      fun y _ q _ _ hcase => ?_
    · simp [hcalls] at hq
    · -- the acknowledgement takes the place of the packet
      rcases hcase with ⟨p',hp',hseq,hlt⟩ | ⟨p',hp',-⟩
      · obtain rfl : p = p' := by simpa [packetTo,hty] using hp'
        refine ⟨_,perform_spawns clock (e := .B) (p := ackPkt s.vars.b.expectedSeq)
          (by simp [hcalls]),Or.inr ⟨ackPkt s.vars.b.expectedSeq,by simp [packetTo,Entity.other],
          ?_,hlt⟩⟩
        rw [← hseq,hp]
        rfl
      · simp [packetTo,hty] at hp'
  · change (bInput W p s.vars.b).1.expectedSeq = s.vars.b.expectedSeq + 1 at hexp
    unfold progress
    rw [ht,perform_vars,(perform_frame clock intact _ _).2.2]
    simp only [hexp]
    omega

theorem Prompt.step (h : Prompt clock W msgs s) (hW : 0 < W) (hW8 : W ≤ 8)
    (hround : ∀ x ∈ s.evlist, RoundTrip clock x.evtime)
    (hst : simStep clock (students W junk) msgs intact s = some t) :
    Prompt clock W msgs t ∧ progress t = progress s + 1 := by
  have hsound := h.toSound.step hW hW8 hst ((intact_step h.timely hst).1 h.clean)
  have hnew : Pipeline W t.net ∧ Punctual clock t ∧ progress t = progress s + 1 := by
    obtain ⟨e,rest,hl,⟨hty,r,hr,ht⟩ | ⟨p,hty,ht⟩ | ⟨p,hty,ht⟩ | ⟨q,hty,-⟩⟩ := simStep_cases hst
    · obtain ⟨r',hr',rfl⟩ := Option.map_eq_some_iff.mp hr
      exact h.arrival_round (hround e (by simp [hl])) hl hty hr' ht
    · exact h.ack_round (hround e (by simp [hl])) hl hty ht
    · exact h.data_round hW hW8 (hround e (by simp [hl])) hl hty ht
    · exact absurd (by simp [timerOf,hty]) (h.punctual.head h.timely hl q)
  exact ⟨⟨hsound,hnew.1,hnew.2.1⟩,hnew.2.2⟩

theorem prompt_init (clock : Clock T) (hW : 0 < W) (hW8 : W ≤ 8) (junk : Nat → Pkt)
    (msgs : List Msg) : Prompt clock W msgs (init clock (students W junk) msgs) := by
  have hclean : Clean msgs.length (init clock (students W junk) msgs).net := by
    rw [(timely_init clock (students W junk) msgs).2]
    exact Or.inr fun e p hp => by cases hp
  have hrefl : Reaches (simStep clock (students W junk) msgs intact)
      (init clock (students W junk) msgs) (init clock (students W junk) msgs) := Reaches.refl _
  refine ⟨sound_of_reaches hW hW8 hrefl hclean,?_,?_⟩
  · rw [(timely_init clock (students W junk) msgs).2]
    exact pipeline_init W junk
  · intro y hy q hq
    have htimers : q ∈ (init clock (students W junk) msgs).net.timers :=
      List.mem_filterMap.mpr ⟨y,hy,hq⟩
    rw [(timely_init clock (students W junk) msgs).2] at htimers
    cases htimers

/-- The state of a run over an intact channel, every event of which comes at a time that
leaves room for a round trip. -/
structure OnTime (clock : Clock T) (W : Nat) (junk : Nat → Pkt) (msgs : List Msg)
    (s : Sim T Vars) : Prop extends Prompt clock W msgs s where
  round : ∀ t, Reaches (simStep clock (students W junk) msgs intact) s t →
    ∀ x ∈ t.evlist, RoundTrip clock x.evtime

theorem OnTime.step (h : OnTime clock W junk msgs s) (hW : 0 < W) (hW8 : W ≤ 8)
    (hst : simStep clock (students W junk) msgs intact s = some t) :
    OnTime clock W junk msgs t ∧ progress t = progress s + 1 := by
  obtain ⟨hp,hn⟩ := h.toPrompt.step hW hW8 (h.round s (Reaches.refl s)) hst
  exact ⟨⟨hp,fun u hu => h.round u ((Reaches.single hst).trans hu)⟩,hn⟩

theorem OnTime.of_reaches (h : OnTime clock W junk msgs s) (hW : 0 < W) (hW8 : W ≤ 8)
    (hr : Reaches (simStep clock (students W junk) msgs intact) s t) :
    OnTime clock W junk msgs t :=
  hr.invariant (fun _ _ hst hs => (hs.step hW hW8 hst).1) h

theorem Sound.progress_le (h : Sound clock W msgs s) : progress s ≤ 3 * msgs.length := by
  have he : s.vars.b.expectedSeq ≤ s.vars.a.nextseqnum := h.inv.receiver.expected_le
  have hn : s.vars.a.nextseqnum ≤ s.given.length := h.inv.next_le
  have hb := h.base_le_given
  unfold progress
  omega

/-- A round is possible unless there is nothing left to do or the queue overflows. -/
theorem round_or_stop (clock : Clock T) (W : Nat) (junk : Nat → Pkt) (msgs : List Msg)
    (s : Sim T Vars) : s.evlist = [] ∨ Overflows W s ∨
    ∃ t, simStep clock (students W junk) msgs intact s = some t := by
  cases hl : s.evlist with
  | nil => exact Or.inl rfl
  | cons e rest =>
    refine Or.inr ?_
    cases hty : e.evtype with
    | fromLayer5 =>
      by_cases hfull : s.vars.a.base + W ≤ s.vars.a.nextseqnum ∧ maxbufsize - 1 ≤ s.vars.a.msgNum
      · exact Or.inl ⟨⟨e,rest,hl,hty⟩,hfull⟩
      · obtain ⟨r,hr⟩ := aOutput_isSome (m := msgs.getD s.given.length default) hfull
        have hst := simStep_arrival clock (students W junk) msgs intact hl hty
        simp only [students,hr,Option.map_some] at hst
        exact Or.inr ⟨_,hst⟩
    | fromLayer3 d p =>
      cases d with
      | A => exact Or.inr ⟨_,simStep_packetA clock (students W junk) msgs intact hl hty⟩
      | B => exact Or.inr ⟨_,simStep_packetB clock (students W junk) msgs intact hl hty⟩
    | timeRInterrupt q => exact Or.inr ⟨_,simStep_timer clock (students W junk) msgs intact hl hty⟩

/-- Every round takes an end on, so the run ends without any help of the timers. -/
theorem OnTime.ends (h : OnTime clock W junk msgs s) (hW : 0 < W) (hW8 : W ≤ 8) :
    Eventually (simStep clock (students W junk) msgs intact)
      (fun t => Drained msgs t ∨ Overflows W t) s := by
  refine eventually_of_rank (I := OnTime clock W junk msgs)
    (fun s => 3 * msgs.length - progress s) (fun s hs => ?_) h
  rcases round_or_stop clock W junk msgs s with hl | hover | ⟨t,hst⟩
  · exact .now (Or.inl (Or.inl (hs.toSound.drained_of_nil hW hl)))
  · exact .now (Or.inl (Or.inr hover))
  · obtain ⟨ht,hn⟩ := hs.step hW hW8 hst
    have hle := ht.toSound.progress_le
    exact .later hst (.now (Or.inr ⟨ht,by omega⟩))

/-- At the end each message has made one data packet and one acknowledgement. -/
theorem Prompt.handed_of_drained (h : Prompt clock W msgs s) (hd : Drained msgs s) :
    s.handed.length = 2 * msgs.length := by
  obtain ⟨-,htaken,-,-⟩ := hd
  have he : s.vars.b.expectedSeq ≤ s.vars.a.nextseqnum := h.inv.receiver.expected_le
  have hn : s.vars.a.nextseqnum ≤ s.given.length := h.inv.next_le
  have hg : s.given.length ≤ msgs.length := h.supply.given_le
  have hlen := congrArg List.length (h.inv.receiver.taken_eq)
  change s.taken.length = ((s.given.take s.vars.b.expectedSeq).map Msg.data).length at hlen
  rw [htaken,List.length_map,List.length_map,List.length_take] at hlen
  have hdata := congrArg List.length h.pipeline.data
  have hacks := congrArg List.length h.pipeline.acks
  rw [List.length_map,List.length_range] at hdata hacks
  have hsum := length_sentBy s.handed
  change (sentBy .A s.handed).length = s.vars.a.nextseqnum at hdata
  change (sentBy .B s.handed).length = s.vars.b.expectedSeq at hacks
  omega

/-- When the channel loses nothing and an acknowledgement takes less than a timeout, no
timer goes off, every packet is sent and acknowledged once, and the run ends with everything
delivered unless the queue overflows. -/
theorem selectiveRepeat_lossless (clock : Clock T) (W : Nat) (junk : Nat → Pkt)
    (msgs : List Msg) (s : Sim T Vars) (hW : 1 ≤ W) (hW8 : W ≤ 8)
    (hround : ∀ t, Reaches (simStep clock (students W junk) msgs intact)
      (init clock (students W junk) msgs) t → ∀ x ∈ t.evlist, RoundTrip clock x.evtime)
    (h : Reaches (simStep clock (students W junk) msgs intact)
      (init clock (students W junk) msgs) s) :
    (∀ e rest, s.evlist = e :: rest → ∀ q, e.evtype ≠ .timeRInterrupt q) ∧
    sentBy .A s.handed = (List.range s.vars.a.nextseqnum).map (sentPkt s.given) ∧
    sentBy .B s.handed = (List.range s.vars.b.expectedSeq).map (fun k : Nat => ackPkt k) ∧
    Eventually (simStep clock (students W junk) msgs intact)
      (fun t => Drained msgs t ∧ t.handed.length = 2 * msgs.length ∨ Overflows W t) s := by
  have hs : OnTime clock W junk msgs s :=
    OnTime.of_reaches ⟨prompt_init clock hW hW8 junk msgs,hround⟩ hW hW8 h
  refine ⟨fun e rest hl q hty => ?_,hs.pipeline.data,hs.pipeline.acks,?_⟩
  · exact hs.punctual.head hs.timely hl q (by simp [timerOf,hty])
  · obtain ⟨t,ht,hend⟩ := eventually_iff_reaches.mp (hs.ends hW hW8)
    refine eventually_iff_reaches.mpr ⟨t,ht,hend.imp_left fun hd => ⟨hd,?_⟩⟩
    exact (hs.of_reaches hW hW8 ht).handed_of_drained hd

end Timing

/-- A message every time unit over a window of two: a round trip takes 13, a timeout 15. -/
theorem selectiveRepeat_lossless_unitClock :
    Eventually (simStep unitClock (students 2 default) sampleMsgs intact)
      (fun t => Drained sampleMsgs t ∧ t.handed.length = 4 ∨ Overflows 2 t)
      (init unitClock (students 2 default) sampleMsgs) :=
  (selectiveRepeat_lossless unitClock 2 default sampleMsgs _ (by decide) (by decide)
    (fun _ _ x _ => by
      simp only [RoundTrip,unitClock,exactClock]
      linarith) (Reaches.refl _)).2.2.2

end NetworkLab.Sr
