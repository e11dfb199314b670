import NetworkLab.Lib.Interaction
set_option autoImplicit false

/-! A client program and a server program with a queue in each direction. Nothing here is
about a particular protocol: a `Port` says what a call does to the queues. -/

namespace NetworkLab.Interaction

/-- A call inside the program, one that sends a message, or one that waits for one. -/
inductive Port (M A : Type) where
  | inner
  | out (message : M) (answer : A)
  | inn (answer : M → A)

/-- What a step does to the queues. -/
inductive Io (M : Type) where
  | quiet
  | sent (message : M)
  | took (message : M)

section Queues
variable {M : Type}

def Io.push : Io M → List M → List M
  | .sent m, queue => queue ++ [m]
  | _, queue => queue

/-- A message is taken from the front. -/
def Io.Pull : Io M → List M → List M → Prop
  | .took m, queue, queue' => queue = m :: queue'
  | _, queue, queue' => queue' = queue

theorem Io.push_cons (io : Io M) (m : M) (queue : List M) :
    io.push (m :: queue) = m :: io.push queue := by
  cases io <;> rfl

theorem Io.Pull.append {io : Io M} {queue queue' : List M} (h : io.Pull queue queue') (m : M) :
    io.Pull (queue ++ [m]) (queue' ++ [m]) := by
  cases io with
  | took m' => exact congrArg (· ++ [m]) h
  | quiet => exact congrArg (· ++ [m]) h
  | sent m' => exact congrArg (· ++ [m]) h

theorem Io.forall_push {io : Io M} {queue : List M} {P : M → Prop} (h : ∀ m ∈ queue, P m)
    (hsent : ∀ m, io = .sent m → P m) : ∀ m ∈ io.push queue, P m := by
  cases io with
  | sent m => exact List.forall_mem_append.mpr ⟨h,List.forall_mem_singleton.mpr (hsent m rfl)⟩
  | quiet => exact h
  | took m => exact h

theorem Io.Pull.forall {io : Io M} {queue queue' : List M} {P : M → Prop}
    (hp : io.Pull queue queue') (h : ∀ m ∈ queue, P m) :
    (∀ m, io = .took m → P m) ∧ ∀ m ∈ queue', P m := by
  cases io with
  | took m =>
    obtain rfl : queue = m :: queue' := hp
    obtain ⟨hm,hrest⟩ := List.forall_mem_cons.mp h
    refine ⟨fun m' he => ?_,hrest⟩
    cases he
    exact hm
  | quiet =>
    obtain rfl : queue' = queue := hp
    exact ⟨fun m he => (nomatch he),h⟩
  | sent m =>
    obtain rfl : queue' = queue := hp
    exact ⟨fun m he => (nomatch he),h⟩

/-- A queue whose messages arrive some time after they were sent. -/
structure Channel (M : Type) where
  queued : List M
  flying : List M

namespace Channel

def empty : Channel M := ⟨[],[]⟩

def content (ch : Channel M) : List M := ch.queued ++ ch.flying

def push (ch : Channel M) (io : Io M) : Channel M := { ch with flying := io.push ch.flying }

/-- Only what has arrived can be taken. -/
def Pull (io : Io M) (ch ch' : Channel M) : Prop :=
  io.Pull ch.queued ch'.queued ∧ ch'.flying = ch.flying

theorem content_push (ch : Channel M) (io : Io M) : (ch.push io).content = io.push ch.content := by
  cases io with
  | sent m => exact (List.append_assoc ch.queued ch.flying [m]).symm
  | quiet => rfl
  | took m => rfl

theorem Pull.content {io : Io M} {ch ch' : Channel M} (h : Pull io ch ch') :
    io.Pull ch.content ch'.content := by
  obtain ⟨hq,hf⟩ := h
  unfold Channel.content
  rw [hf]
  cases io with
  | took m => exact congrArg (· ++ ch.flying) hq
  | quiet => exact congrArg (· ++ ch.flying) hq
  | sent m => exact congrArg (· ++ ch.flying) hq

end Channel

end Queues

section Parties
variable {Op : Type} {Res : Op → Type} {M α β G : Type}

/-- One call of a program. -/
inductive Advance (wire : (o : Op) → Port M (Res o)) :
    Prog Res α → Event Res → Io M → Prog Res α → Prop where
  | inner {o : Op} {k : Res o → Prog Res α} (r : Res o) : wire o = .inner →
      Advance wire (.call o k) ⟨o,r⟩ .quiet (k r)
  | out {o : Op} {k : Res o → Prog Res α} {m : M} {a : Res o} : wire o = .out m a →
      Advance wire (.call o k) ⟨o,a⟩ (.sent m) (k a)
  | inn {o : Op} {k : Res o → Prog Res α} {f : M → Res o} (m : M) : wire o = .inn f →
      Advance wire (.call o k) ⟨o,f m⟩ (.took m) (k (f m))

/-- A step that is known from a whole run of the program. -/
theorem Advance.of_exec {wire : (o : Op) → Port M (Res o)} {p : Prog Res α} {o : Op} {r : Res o}
    {io : Io M} {tr : List (Event Res)} {a : α} (h : Exec p (⟨o,r⟩ :: tr) a)
    (hio : ∀ k : Res o → Prog Res α, Advance wire (.call o k) ⟨o,r⟩ io (k r)) :
    ∃ p', Advance wire p ⟨o,r⟩ io p' ∧ Exec p' tr a := by
  obtain ⟨k,rfl,hk⟩ := exec_cons h
  exact ⟨_,hio k,hk⟩

/-- The next call waits for a message. -/
def Waiting (wire : (o : Op) → Port M (Res o)) (p : Prog Res α) : Prop :=
  ∃ o k f, p = .call o k ∧ wire o = .inn f

theorem Waiting.took {wire : (o : Op) → Port M (Res o)} {p p' : Prog Res α} {ev : Event Res}
    {io : Io M} (hw : Waiting wire p) (h : Advance wire p ev io p') : ∃ m, io = .took m := by
  obtain ⟨o,k,f,rfl,hf⟩ := hw
  cases h with
  | inner r hi => cases hf.symm.trans hi
  | out ho => cases hf.symm.trans ho
  | inn m hi => exact ⟨m,rfl⟩

/-- How two programs are connected, and what is assumed of the answers to their inner
calls. What the client has seen so far (`note`) can only widen what the server may see. -/
structure Wiring (Res : Op → Type) (M G : Type) where
  client : (o : Op) → Port M (Res o)
  server : (o : Op) → Port M (Res o)
  clientCan : Event Res → Prop
  serverCan : G → Event Res → Prop
  note : G → Event Res → G
  fits : Op → M → Prop
  answers : ∀ o, client o = .inner → ∃ r, clientCan ⟨o,r⟩
  grows : ∀ g ev ev', serverCan g ev → serverCan (note g ev') ev

variable (W : Wiring Res M G)

/-- The server only makes inner calls any more. -/
inductive Quiet (g : G) : Prog Res β → Prop where
  | ret (b : β) : Quiet g (.ret b)
  | inner {o : Op} {k : Res o → Prog Res β} : W.server o = .inner →
      (∀ r, W.serverCan g ⟨o,r⟩ → Quiet g (k r)) → Quiet g (.call o k)

/-- The two programs fit together, shown on the runs in which the server moves only while
the client waits. `requests` and `replies` are on their way, `calls` were made by the
server. The client ends with both queues empty and the server quiet. -/
inductive Dual (Post : α → List (Event Res) → Prop) : Prog Res α → G → List M →
    Prog Res β → List (Event Res) → List M → Prop where
  | ret {a : α} {g : G} {q : Prog Res β} {calls : List (Event Res)} : Post a calls →
      Quiet W g q → Dual Post (.ret a) g [] q calls []
  | inner {o : Op} {k : Res o → Prog Res α} {g : G} {requests replies : List M}
      {q : Prog Res β} {calls : List (Event Res)} : W.client o = .inner →
      (∀ r, W.clientCan ⟨o,r⟩ → Dual Post (k r) (W.note g ⟨o,r⟩) requests q calls replies) →
      Dual Post (.call o k) g requests q calls replies
  | out {o : Op} {k : Res o → Prog Res α} {m : M} {a : Res o} {g : G}
      {requests replies : List M} {q : Prog Res β} {calls : List (Event Res)} :
      W.client o = .out m a →
      Dual Post (k a) (W.note g ⟨o,a⟩) (requests ++ [m]) q calls replies →
      Dual Post (.call o k) g requests q calls replies
  | inn {o : Op} {k : Res o → Prog Res α} {f : M → Res o} {m : M} {g : G}
      {requests replies : List M} {q : Prog Res β} {calls : List (Event Res)} :
      W.client o = .inn f →
      Dual Post (k (f m)) (W.note g ⟨o,f m⟩) requests q calls replies →
      Dual Post (.call o k) g requests q calls (m :: replies)
  | serverInner {p : Prog Res α} {o : Op} {k : Res o → Prog Res β} {g : G}
      {requests : List M} {calls : List (Event Res)} : Waiting W.client p →
      W.server o = .inner →
      (∀ r, W.serverCan g ⟨o,r⟩ → Dual Post p g requests (k r) (calls ++ [⟨o,r⟩]) []) →
      Dual Post p g requests (.call o k) calls []
  | serverOut {p : Prog Res α} {o : Op} {k : Res o → Prog Res β} {m : M} {a : Res o} {g : G}
      {requests : List M} {calls : List (Event Res)} : Waiting W.client p →
      W.server o = .out m a → Dual Post p g requests (k a) (calls ++ [⟨o,a⟩]) [m] →
      Dual Post p g requests (.call o k) calls []
  | serverInn {p : Prog Res α} {o : Op} {k : Res o → Prog Res β} {f : M → Res o} {m : M}
      {g : G} {requests : List M} {calls : List (Event Res)} : Waiting W.client p →
      W.server o = .inn f → W.fits o m →
      Dual Post p g requests (k (f m)) (calls ++ [⟨o,f m⟩]) [] →
      Dual Post p g (m :: requests) (.call o k) calls []
  | gone {p : Prog Res α} {b : β} {g : G} {calls : List (Event Res)} : Waiting W.client p →
      Dual Post p g [] (.ret b) calls []
  | deadlock {p : Prog Res α} {q : Prog Res β} {g : G} {calls : List (Event Res)} :
      Waiting W.client p → Waiting W.server q → Dual Post p g [] q calls []

variable {W} {Post : α → List (Event Res) → Prop} {p p' : Prog Res α} {q q' : Prog Res β}
variable {g : G} {requests requests' replies replies' : List M} {calls : List (Event Res)}
variable {ev : Event Res} {io : Io M}

theorem Quiet.step (h : Quiet W g q) (ha : Advance W.server q ev io q')
    (hcan : io = .quiet → W.serverCan g ev) : io = .quiet ∧ Quiet W g q' := by
  cases h with
  | ret b => cases ha
  | inner hi hk =>
    cases ha with
    | inner r _ => exact ⟨rfl,hk r (hcan rfl)⟩
    | out ho => cases hi.symm.trans ho
    | inn m hm => cases hi.symm.trans hm

/-- The client may go on at any time. -/
theorem Dual.clientStep (h : Dual W Post p g requests q calls replies)
    (ha : Advance W.client p ev io p') (hin : io.Pull replies replies')
    (hcan : io = .quiet → W.clientCan ev) :
    Dual W Post p' (W.note g ev) (io.push requests) q calls replies' := by
  have hblocked : Waiting W.client p → replies ≠ [] := by
    intro hw hnil
    obtain ⟨m,rfl⟩ := hw.took ha
    rw [hnil] at hin
    cases hin
  cases h with
  | ret => cases ha
  | inner hi hk =>
    cases ha with
    | inner r _ =>
      obtain rfl : replies' = replies := hin
      exact hk r (hcan rfl)
    | out ho => cases hi.symm.trans ho
    | inn m hm => cases hi.symm.trans hm
  | out ho hk =>
    cases ha with
    | inner r hi => cases ho.symm.trans hi
    | out ho' =>
      obtain rfl : replies' = replies := hin
      cases ho.symm.trans ho'
      exact hk
    | inn m hm => cases ho.symm.trans hm
  | inn hf hk =>
    cases ha with
    | inner r hi => cases hf.symm.trans hi
    | out ho => cases hf.symm.trans ho
    | inn m hf' =>
      cases hf.symm.trans hf'
      obtain ⟨rfl,rfl⟩ := List.cons.inj hin
      exact hk
  | serverInner hw => exact absurd rfl (hblocked hw)
  | serverOut hw => exact absurd rfl (hblocked hw)
  | serverInn hw => exact absurd rfl (hblocked hw)
  | gone hw => exact absurd rfl (hblocked hw)
  | deadlock hw => exact absurd rfl (hblocked hw)

/-- So may the server: a step that it makes early is the one that it would make later. -/
theorem Dual.serverStep (hpost : ∀ a calls ev, Post a calls → Post a (calls ++ [ev]))
    (h : Dual W Post p g requests q calls replies) (ha : Advance W.server q ev io q')
    (hin : io.Pull requests requests') (hcan : io = .quiet → W.serverCan g ev) :
    Dual W Post p g requests' q' (calls ++ [ev]) (io.push replies) := by
  induction h generalizing requests' with
  | ret hp hq =>
    obtain ⟨rfl,hq'⟩ := hq.step ha hcan
    obtain rfl : requests' = [] := hin
    exact .ret (hpost _ _ _ hp) hq'
  | inner hi _ ih =>
    exact .inner hi fun r hr => ih r hr ha hin fun hio => W.grows _ _ _ (hcan hio)
  | out ho _ ih => exact .out ho (ih ha (hin.append _) fun hio => W.grows _ _ _ (hcan hio))
  | inn hf _ ih =>
    rw [Io.push_cons]
    exact .inn hf (ih ha hin fun hio => W.grows _ _ _ (hcan hio))
  | serverInner hw hi hk =>
    cases ha with
    | inner r _ =>
      obtain rfl : requests' = _ := hin
      exact hk r (hcan rfl)
    | out ho => cases hi.symm.trans ho
    | inn m hm => cases hi.symm.trans hm
  | serverOut hw ho hk =>
    cases ha with
    | inner r hi => cases ho.symm.trans hi
    | out ho' =>
      obtain rfl : requests' = _ := hin
      cases ho.symm.trans ho'
      exact hk
    | inn m hm => cases ho.symm.trans hm
  | serverInn hw hf _ hk =>
    cases ha with
    | inner r hi => cases hf.symm.trans hi
    | out ho => cases hf.symm.trans ho
    | inn m hf' =>
      cases hf.symm.trans hf'
      obtain ⟨rfl,rfl⟩ := List.cons.inj hin
      exact hk
  | gone => cases ha
  | deadlock _ hw =>
    obtain ⟨m,rfl⟩ := hw.took ha
    cases hin

theorem Dual.returned {a : α} (h : Dual W Post (.ret a) g requests q calls replies) :
    Post a calls ∧ requests = [] ∧ replies = [] ∧ Quiet W g q := by
  have hno : ¬Waiting W.client (.ret a) := by
    rintro ⟨o,k,f,h,-⟩
    cases h
  cases h with
  | ret hp hq => exact ⟨hp,rfl,rfl,hq⟩
  | serverInner hw => exact absurd hw hno
  | serverOut hw => exact absurd hw hno
  | serverInn hw => exact absurd hw hno
  | gone hw => exact absurd hw hno
  | deadlock hw => exact absurd hw hno

/-- The server does not go while there is a request, nor does one come later. -/
theorem Dual.no_request {b : β} (h : Dual W Post p g requests (.ret b) calls replies) :
    requests = [] := by
  generalize hq : (Prog.ret b : Prog Res β) = q at h
  induction h with
  | ret => rfl
  | inner hi _ ih =>
    obtain ⟨r,hr⟩ := W.answers _ hi
    exact ih r hr hq
  | out _ _ ih => exact absurd (ih hq) (by simp)
  | inn _ _ ih => exact ih hq
  | serverInner => cases hq
  | serverOut => cases hq
  | serverInn => cases hq
  | gone => rfl
  | deadlock => rfl

/-- What the server takes is what it waits for. -/
theorem Dual.fits_of_took {m : M} (h : Dual W Post p g requests q calls replies)
    (ha : Advance W.server q ev (.took m) q') (hm : requests.head? = some m) :
    W.fits ev.1 m := by
  induction h with
  | ret _ hq => cases (hq.step ha (by simp)).1
  | inner hi _ ih =>
    obtain ⟨r,hr⟩ := W.answers _ hi
    exact ih r hr ha hm
  | out _ _ ih => exact ih ha (by simp [List.head?_append,hm])
  | inn _ _ ih => exact ih ha hm
  | serverInner _ hi =>
    cases ha with
    | inn m hf => cases hi.symm.trans hf
  | serverOut _ ho =>
    cases ha with
    | inn m hf => cases ho.symm.trans hf
  | serverInn _ _ hfits =>
    cases ha with
    | inn m hf =>
      obtain rfl := Option.some.inj hm
      exact hfits
  | gone => cases ha
  | deadlock => cases hm

/-- The client starts: it may end without a message, or it sends one that the server will
serve as `Served` says, and waits. -/
inductive Opens (W : Wiring Res M G) (Post : α → Prop) (Served : M → Prog Res α → G → Prop) :
    Prog Res α → G → Prop where
  | ret {a : α} {g : G} : Post a → Opens W Post Served (.ret a) g
  | inner {o : Op} {k : Res o → Prog Res α} {g : G} : W.client o = .inner →
      (∀ r, W.clientCan ⟨o,r⟩ → Opens W Post Served (k r) (W.note g ⟨o,r⟩)) →
      Opens W Post Served (.call o k) g
  | out {o : Op} {k : Res o → Prog Res α} {m : M} {a : Res o} {g : G} :
      W.client o = .out m a → Waiting W.client (k a) →
      Served m (k a) (W.note g ⟨o,a⟩) → Opens W Post Served (.call o k) g

theorem Opens.step {Post : α → Prop} {Served : M → Prog Res α → G → Prop}
    (h : Opens W Post Served p g) (ha : Advance W.client p ev io p')
    (hcan : io = .quiet → W.clientCan ev) :
    io = .quiet ∧ Opens W Post Served p' (W.note g ev) ∨
      ∃ m, io = .sent m ∧ Waiting W.client p' ∧ Served m p' (W.note g ev) := by
  cases h with
  | ret => cases ha
  | inner hi hk =>
    cases ha with
    | inner r _ => exact Or.inl ⟨rfl,hk r (hcan rfl)⟩
    | out ho => cases hi.symm.trans ho
    | inn m hm => cases hi.symm.trans hm
  | out ho hw hs =>
    cases ha with
    | inner r hi => cases ho.symm.trans hi
    | out ho' =>
      cases ho.symm.trans ho'
      exact Or.inr ⟨_,rfl,hw,hs⟩
    | inn m hm => cases ho.symm.trans hm

end Parties

end NetworkLab.Interaction
