import NetworkLab.Backup.HttpTraces
import NetworkLab.Backup.Files
import NetworkLab.Lib.Guarded
set_option autoImplicit false

/-! File requests of the HTTP server that run at the same time. -/

namespace NetworkLab.Backup
open Interaction

section Answers
variable {F : Type} [DecidableEq F] (resolve : Bytes → F) (files : Files F)

/-- Every call succeeds unless the file that it needs is missing. -/
def Answers : Event Res → Prop
  | ⟨.fileExists path,there⟩ => there = (files (resolve path)).isSome
  | ⟨.deleteFile path,done⟩ => done = (files (resolve path)).isSome
  | ⟨.renameFile oldPath _,done⟩ => done = (files (resolve oldPath)).isSome
  | ⟨.ofstream _,opened⟩ => opened = true
  | ⟨.write _ data,stored⟩ => stored.val = data.length
  | _ => True

/-- All calls of the trace, each with the files at its time. -/
def Answered : Files F → Trace → Prop
  | _, [] => True
  | files, ev :: tr => Answers resolve files ev ∧ Answered (effect resolve files ev) tr

/-- The calls, each with the files that it finds. -/
def history : Files F → Trace → List (Event Res × Files F)
  | _, [] => []
  | files, ev :: tr => (ev,files) :: history (effect resolve files ev) tr

@[simp] theorem answered_append {tr tr' : Trace} : Answered resolve files (tr ++ tr') ↔
    Answered resolve files tr ∧ Answered resolve (filesAfter resolve files tr) tr' := by
  induction tr generalizing files with
  | nil => simp [Answered]
  | cons ev tr ih => simp [Answered,ih,and_assoc]

@[simp] theorem history_append (tr tr' : Trace) : history resolve files (tr ++ tr') =
    history resolve files tr ++ history resolve (filesAfter resolve files tr) tr' := by
  induction tr generalizing files with
  | nil => rfl
  | cons ev tr ih =>
    rw [List.cons_append,history,ih]
    rfl

omit [DecidableEq F] in
/-- Each call can be answered. -/
theorem exists_answer (o : Sys) : ∃ r : Res o, Answers resolve files ⟨o,r⟩ := by
  cases o with
  | fileExists path => exact ⟨_,rfl⟩
  | deleteFile path => exact ⟨_,rfl⟩
  | renameFile oldPath newPath => exact ⟨_,rfl⟩
  | ofstream path => exact ⟨true,rfl⟩
  | write path data => exact ⟨Fin.last _,rfl⟩
  | select => exact ⟨.failed,trivial⟩
  | recvfrom size => exact ⟨none,trivial⟩
  | cstring field memory => exact ⟨[],trivial⟩
  | accepted name => exact ⟨(),trivial⟩
  | metric m => exact ⟨(),trivial⟩
  | getFileSize path => exact ⟨0,trivial⟩
  | listDirectory path => exact ⟨none,trivial⟩
  | read size => exact ⟨⟨[],Nat.zero_le _⟩,trivial⟩
  | uninitialized size => exact ⟨⟨List.replicate size 0,List.length_replicate⟩,trivial⟩
  | recv size => exact ⟨none,trivial⟩
  | send data => exact ⟨none,trivial⟩
  | answer => exact ⟨[],trivial⟩
  | _ => exact ⟨true,trivial⟩

/-- Every program runs to its end. -/
theorem exists_answered {α : Type} (p : Prog Res α) :
    ∃ tr a, Exec p tr a ∧ Answered resolve files tr := by
  induction p generalizing files with
  | ret a => exact ⟨[],a,.ret a,trivial⟩
  | call o k ih =>
    obtain ⟨r,hr⟩ := exists_answer resolve files o
    obtain ⟨tr,a,he,ha⟩ := ih r (effect resolve files ⟨o,r⟩)
    exact ⟨_,a,.call r he,hr,ha⟩

end Answers

/-- The calls that change the files. -/
def acted : Event Res → Bool
  | ⟨.ofstream _,opened⟩ => opened
  | ⟨.deleteFile _,done⟩ => done
  | ⟨.renameFile _ _,done⟩ => done
  | _ => false

/-- Opening a file and writing into it is one step, everything else is one by itself. -/
def atomicSteps : Trace → List Trace
  | ⟨.ofstream path,opened⟩ :: ⟨.write path' data,stored⟩ :: tr =>
    [⟨.ofstream path,opened⟩,⟨.write path' data,stored⟩] :: atomicSteps tr
  | ev :: tr => [ev] :: atomicSteps tr
  | [] => []

theorem flatten_atomicSteps (tr : Trace) : (atomicSteps tr).flatten = tr := by
  fun_induction atomicSteps tr with
  | case1 path opened path' data stored tr ih => simp [ih]
  | case2 ev tr _ ih => simp [ih]
  | case3 => rfl

section Plays
variable {F : Type} [DecidableEq F] (resolve : Bytes → F)

/-- The test of `fileExists`, which wants the file to be there or not. -/
def present (path : Bytes) (wanted : Bool) (files : Files F) : Bool :=
  (files (resolve path)).isSome == wanted

/-- The steps still to come are those of a command in this status. -/
inductive Plays (c : Guarded (Files F)) : Guarded.Status (Files F) → List Trace → Bool → Prop where
  | ended (ok : Bool) : Plays c (.done ok) [] ok
  | idle {st : Guarded.Status (Files F)} {steps : List Trace} {ok : Bool} {ev : Event Res} :
      alters ev = false → Plays c st steps ok → Plays c st ([ev] :: steps) ok
  | refused {ts : List (Files F → Bool)} {steps : List Trace} {ok : Bool} {ev : Event Res} :
      alters ev = false → Plays c (.done false) steps ok →
      Plays c (.testing ((fun _ => false) :: ts)) ([ev] :: steps) ok
  | look {ts : List (Files F → Bool)} {steps : List Trace} {ok wanted : Bool} {path : Bytes}
      (there : Bool) : Plays c (if there = wanted then .testing ts else .done false) steps ok →
      Plays c (.testing (present resolve path wanted :: ts)) ([⟨.fileExists path,there⟩] :: steps) ok
  | act {steps : List Trace} {ok : Bool} {ev : Event Res} {rest : Trace} : acted ev = true →
      (∀ e ∈ rest, acted e = false) →
      (∀ files, Answered resolve files (ev :: rest) →
        c.act files = some (filesAfter resolve files (ev :: rest))) →
      Plays c (.done true) steps ok → Plays c (.testing []) ((ev :: rest) :: steps) ok
  | miss {steps : List Trace} {ok : Bool} {ev : Event Res} : acted ev = false →
      (∀ files, Answers resolve files ev →
        c.act files = none ∧ effect resolve files ev = files) →
      Plays c (.done false) steps ok → Plays c (.testing []) ([ev] :: steps) ok
  | impossible {st : Guarded.Status (Files F)} {step : Trace} {steps : List Trace} {ok : Bool} :
      (∀ files, ¬Answered resolve files step) → Plays c st (step :: steps) ok

variable {resolve} {I : Type} [DecidableEq I] {files : Files F}

theorem acted_of_not_alters {ev : Event Res} (h : alters ev = false) : acted ev = false := by
  unfold alters at h
  unfold acted
  split <;> simp_all

/-- The actions of the commands are the calls that change the files. -/
def Recorded (xs : I → List Trace) (acts : List (I × Files F))
    (calls : List (Event Res × Files F)) : Prop :=
  (∀ i x, (i,x) ∈ acts → ∃ ev, acted ev = true ∧ ev ∈ (xs i).flatten ∧ (ev,x) ∈ calls) ∧
  ∀ ev x, (ev,x) ∈ calls → acted ev = true → ∃ i, (i,x) ∈ acts ∧ ev ∈ (xs i).flatten

theorem mem_flatten_update {xs : I → List Trace} {i k : I} {step : Trace} {rest : List Trace}
    {ev : Event Res} (hi : xs i = step :: rest)
    (h : ev ∈ (Function.update xs i rest k).flatten) : ev ∈ (xs k).flatten := by
  by_cases hk : k = i
  · rw [hk,Function.update_self] at h
    rw [hk,hi,List.flatten_cons]
    exact List.mem_append_right _ h
  · rwa [Function.update_of_ne hk] at h

omit [DecidableEq F] in
/-- A step that changes nothing is no action. -/
theorem Recorded.quiet {xs : I → List Trace} {i : I} {ev : Event Res} {rest : List Trace}
    {acts : List (I × Files F)} {calls : List (Event Res × Files F)} (hi : xs i = [ev] :: rest)
    (hev : acted ev = false) (h : Recorded (Function.update xs i rest) acts calls) :
    Recorded xs acts ((ev,files) :: calls) := by
  refine ⟨fun k x hk => ?_,fun e x he hacted => ?_⟩
  · obtain ⟨e,hacted,hmem,hcall⟩ := h.1 k x hk
    exact ⟨e,hacted,mem_flatten_update hi hmem,List.mem_cons_of_mem _ hcall⟩
  · rcases List.mem_cons.mp he with heq | he
    · obtain ⟨rfl,rfl⟩ := Prod.mk.inj heq
      rw [hev] at hacted
      cases hacted
    · obtain ⟨k,hk,hmem⟩ := h.2 e x he hacted
      exact ⟨k,hk,mem_flatten_update hi hmem⟩

theorem mem_of_history {tr : Trace} {e : Event Res} {x : Files F}
    (h : (e,x) ∈ history resolve files tr) : e ∈ tr := by
  induction tr generalizing files with
  | nil => cases h
  | cons ev tr ih =>
    rcases List.mem_cons.mp h with he | he
    · rw [(Prod.mk.inj he).1]
      exact List.mem_cons_self
    · exact List.mem_cons_of_mem _ (ih he)

theorem Recorded.act {xs : I → List Trace} {i : I} {ev : Event Res} {tr : Trace}
    {rest : List Trace} {acts : List (I × Files F)} {calls : List (Event Res × Files F)}
    (hi : xs i = (ev :: tr) :: rest) (hev : acted ev = true) (htr : ∀ e ∈ tr, acted e = false)
    (h : Recorded (Function.update xs i rest) acts calls) :
    Recorded xs ((i,files) :: acts) (history resolve files (ev :: tr) ++ calls) := by
  have hmem : ev ∈ (xs i).flatten := by simp [hi]
  refine ⟨fun k x hk => ?_,fun e x he hacted => ?_⟩
  · rcases List.mem_cons.mp hk with heq | hk
    · obtain ⟨rfl,rfl⟩ := Prod.mk.inj heq
      exact ⟨ev,hev,hmem,List.mem_append_left _ List.mem_cons_self⟩
    · obtain ⟨e,hacted,hin,hcall⟩ := h.1 k x hk
      exact ⟨e,hacted,mem_flatten_update hi hin,List.mem_append_right _ hcall⟩
  · rcases List.mem_append.mp he with he | he
    · rcases List.mem_cons.mp he with heq | he
      · obtain ⟨rfl,rfl⟩ := Prod.mk.inj heq
        exact ⟨i,List.mem_cons_self,hmem⟩
      · rw [htr e (mem_of_history he)] at hacted
        cases hacted
    · obtain ⟨k,hk,hin⟩ := h.2 e x he hacted
      exact ⟨k,List.mem_cons_of_mem _ hk,mem_flatten_update hi hin⟩

/-- The calls of several requests, in any order of their steps, are steps of their
commands. -/
theorem together_of_shuffle {c : I → Guarded (Files F)} {xs : I → List Trace}
    {out : List (I × Trace)} (h : Shuffle xs out) {st : I → Guarded.Status (Files F)}
    {ok : I → Bool} (hp : ∀ i, Plays resolve (c i) (st i) (xs i) (ok i))
    (ha : Answered resolve files (out.flatMap Prod.snd)) :
    ∃ acts, Guarded.Together c st files acts ok
        (filesAfter resolve files (out.flatMap Prod.snd)) ∧
      Recorded xs acts (history resolve files (out.flatMap Prod.snd)) := by
  induction h generalizing st files with
  | @nil xs hnil =>
    refine ⟨[],.stop fun i => ?_,fun _ _ hk => absurd hk List.not_mem_nil,
      fun _ _ he => absurd he List.not_mem_nil⟩
    have hpi := hp i
    rw [hnil] at hpi
    generalize st i = sti,ok i = oki at hpi
    cases hpi with
    | ended => rfl
  | @cons xs i step rest out hi _ ih =>
    rw [List.flatMap_cons,answered_append] at ha
    obtain ⟨hstep,hrest⟩ := ha
    rw [List.flatMap_cons,filesAfter_append,history_append]
    have hupdate : ∀ {st' : Guarded.Status (Files F)}, Plays resolve (c i) st' rest (ok i) →
        ∀ k, Plays resolve (c k) (Function.update st i st' k) (Function.update xs i rest k)
          (ok k) := by
      intro st' hst' k
      by_cases hk : k = i
      · subst hk
        rwa [Function.update_self,Function.update_self]
      · rw [Function.update_of_ne hk,Function.update_of_ne hk]
        exact hp k
    have hpi := hp i
    rw [hi] at hpi
    generalize hst : st i = sti at hpi
    cases hpi with
    | @idle _ _ _ ev hev hplays =>
      have heffect : filesAfter resolve files [ev] = files := effect_of_not_alters hev
      rw [heffect] at hrest ⊢
      obtain ⟨acts,ht,hrec⟩ := ih (hupdate hplays) hrest
      rw [← hst,Function.update_eq_self] at ht
      exact ⟨acts,ht,hrec.quiet hi (acted_of_not_alters hev)⟩
    | @refused _ _ _ ev hev hplays =>
      have heffect : filesAfter resolve files [ev] = files := effect_of_not_alters hev
      rw [heffect] at hrest ⊢
      obtain ⟨acts,ht,hrec⟩ := ih (hupdate hplays) hrest
      exact ⟨acts,.fail hst rfl ht,hrec.quiet hi (acted_of_not_alters hev)⟩
    | @look ts _ _ wanted path there hplays =>
      obtain ⟨acts,ht,hrec⟩ := ih (hupdate hplays) hrest
      have hthere : there = (files (resolve path)).isSome := hstep.1
      refine ⟨acts,?_,hrec.quiet hi rfl⟩
      split at ht
      · rename_i hw
        exact .pass hst (by rw [present,← hthere,hw,beq_self_eq_true]) ht
      · rename_i hw
        exact .fail hst (by rw [present,← hthere]; exact beq_false_of_ne hw) ht
    | act hev htr hact hplays =>
      obtain ⟨acts,ht,hrec⟩ := ih (hupdate hplays) hrest
      exact ⟨_,.act hst (hact files hstep) ht,hrec.act hi hev htr⟩
    | @miss _ _ ev hev hmiss hplays =>
      obtain ⟨hnone,heffect⟩ := hmiss files hstep.1
      have heffect : filesAfter resolve files [ev] = files := heffect
      rw [heffect] at hrest ⊢
      obtain ⟨acts,ht,hrec⟩ := ih (hupdate hplays) hrest
      exact ⟨acts,.miss hst hnone ht,hrec.quiet hi hev⟩
    | impossible hno => exact absurd hstep (hno files)

end Plays

end NetworkLab.Backup
