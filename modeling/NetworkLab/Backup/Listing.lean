import NetworkLab.Backup.Strings
set_option autoImplicit false

/-! The list of a directory: the names that the server puts into one message, and the walk
of the client over them. -/

namespace NetworkLab.Backup
open Interaction

/-- The names in a message, each with its zero. -/
def framed (names : List Bytes) : Bytes := names.flatMap (· ++ [0])

/-- A name is kept when it and its zero end before the last byte. -/
def kept : List Bytes → Nat → List Bytes
  | [], _ => []
  | filename :: files, offset =>
    if offset + filename.length + 1 < dataBufLen then
      filename :: kept files (offset + filename.length + 1)
    else kept files offset

/-- Each `strcpy` with its first byte. -/
def copies : List Bytes → Nat → List (Nat × Bytes)
  | [], _ => []
  | filename :: files, offset =>
    if offset + filename.length + 1 < dataBufLen then
      (offset,filename ++ [0]) :: copies files (offset + filename.length + 1)
    else copies files offset

/-- The bytes of `copy.2` go to `copy.1` and behind. -/
def writeCopy (data : Bytes) (copy : Nat × Bytes) : Bytes :=
  data.take copy.1 ++ copy.2 ++ data.drop (copy.1 + copy.2.length)

section Encoder
variable {files names : List Bytes} {offset : Nat}

@[simp] theorem framed_nil : framed [] = [] := rfl

@[simp] theorem framed_cons (name : Bytes) (names : List Bytes) :
    framed (name :: names) = name ++ 0 :: framed names := by
  simp [framed]

theorem length_framed (names : List Bytes) :
    (framed names).length = (names.map fun n => n.length + 1).sum := by
  induction names with
  | nil => rfl
  | cons name names ih =>
    simp only [framed_cons,List.length_append,List.length_cons,ih,List.map_cons,List.sum_cons]
    omega

theorem length_le_framed (names : List Bytes) : names.length ≤ (framed names).length := by
  induction names with
  | nil => exact Nat.le_refl _
  | cons name names ih =>
    rw [framed_cons,List.length_append,List.length_cons,List.length_cons]
    omega

theorem packNames_eq_copies (files : List Bytes) (offset : Nat) (data : Bytes) :
    Server.packNames files offset data = (copies files offset).foldl writeCopy data := by
  induction files generalizing offset data with
  | nil => rfl
  | cons filename files ih =>
    rw [Server.packNames,copies]
    split
    · rw [ih,List.foldl_cons]
      congr 1
      simp [writeCopy,Nat.add_assoc]
    · exact ih _ _

/-- Every copy ends before the last byte. -/
theorem copies_inside (files : List Bytes) (offset : Nat) :
    ∀ copy ∈ copies files offset, copy.1 + copy.2.length < dataBufLen := by
  induction files generalizing offset with
  | nil => simp [copies]
  | cons filename files ih =>
    rw [copies]
    split
    · rename_i hfits
      refine List.forall_mem_cons.mpr ⟨?_,ih _⟩
      rw [List.length_append,List.length_singleton]
      omega
    · exact ih _

/-- The names that are kept leave room for one more zero. -/
theorem length_framed_kept (h : offset < dataBufLen) (files : List Bytes) :
    offset + (framed (kept files offset)).length < dataBufLen := by
  induction files generalizing offset with
  | nil => exact h
  | cons filename files ih =>
    rw [kept]
    split
    · rename_i hfits
      have := ih hfits
      rw [framed_cons,List.length_append,List.length_cons]
      omega
    · exact ih h

theorem length_kept_lt (files : List Bytes) : (kept files 0).length < dataBufLen := by
  have hle := length_le_framed (kept files 0)
  have hlt : 0 + (framed (kept files 0)).length < dataBufLen :=
    length_framed_kept (by decide) files
  omega

theorem kept_sublist (files : List Bytes) (offset : Nat) : (kept files offset).Sublist files := by
  induction files generalizing offset with
  | nil => exact List.Sublist.refl _
  | cons filename files ih =>
    rw [kept]
    split
    · exact (ih _).cons_cons _
    · exact (ih _).cons _

/-- All names are kept exactly when they fit together. -/
theorem kept_eq_self (h : offset < dataBufLen) (files : List Bytes) :
    kept files offset = files ↔ offset + (framed files).length < dataBufLen := by
  constructor
  · intro he
    have := length_framed_kept h files
    rwa [he] at this
  · intro hfit
    induction files generalizing offset with
    | nil => rfl
    | cons filename files ih =>
      rw [framed_cons,List.length_append,List.length_cons] at hfit
      have hfits : offset + filename.length + 1 < dataBufLen := by omega
      rw [kept,if_pos hfits,ih hfits (by omega)]

/-- The message behind the loop: the kept names, and zeros up to its end. -/
theorem packNames_eq (written : Bytes) (h : offset < dataBufLen)
    (hw : written.length = offset) (files : List Bytes) :
    Server.packNames files offset (written ++ List.replicate (dataBufLen - offset) 0) =
      written ++ framed (kept files offset) ++
        List.replicate (dataBufLen - offset - (framed (kept files offset)).length) 0 := by
  induction files generalizing offset written with
  | nil => simp [Server.packNames,kept]
  | cons filename files ih =>
    rw [Server.packNames,kept]
    split
    · rename_i hfits
      have htake : (written ++ List.replicate (dataBufLen - offset) (0 : UInt8)).take offset =
          written := List.take_left' hw
      have hdrop : (written ++ List.replicate (dataBufLen - offset) (0 : UInt8)).drop
          (offset + filename.length + 1) =
            List.replicate (dataBufLen - (offset + filename.length + 1)) 0 := by
        rw [Nat.add_assoc,← List.drop_drop,List.drop_left' hw,List.drop_replicate]
        congr 1
        omega
      have hlen : (written ++ filename ++ [0]).length = offset + filename.length + 1 := by
        simp [hw]
        omega
      have hrest := ih _ hfits hlen
      rw [htake,hdrop,hrest,framed_cons]
      simp only [List.append_assoc,List.cons_append,List.nil_append,List.length_append,
        List.length_cons]
      congr 5
      omega
    · exact ih _ h hw

end Encoder

namespace Server

/-- The message that answers LS. -/
def listing (files : List Bytes) : DataMsg :=
  Vector.ofFn fun i => (packNames files 0 DataMsg.new.toList).getD i 0

theorem toList_listing (files : List Bytes) : ∃ k, (listing files).toList =
    framed (kept files 0) ++ List.replicate (k + 1) 0 := by
  have hpack := packNames_eq [] (show 0 < dataBufLen by decide) rfl files
  have hlt : 0 + (framed (kept files 0)).length < dataBufLen :=
    length_framed_kept (by decide) files
  have hnew : DataMsg.new.toList = List.replicate 3000 0 := by simp [DataMsg.new]
  simp only [List.nil_append,Nat.sub_zero,dataBufLen] at hpack hlt
  refine ⟨2999 - (framed (kept files 0)).length,?_⟩
  have hlen : (packNames files 0 DataMsg.new.toList).length = 3000 := by
    rw [hnew,hpack,List.length_append,List.length_replicate]
    omega
  have hself : (listing files).toList = packNames files 0 DataMsg.new.toList := by
    refine List.ext_getElem (by simp [hlen]) fun i h₁ h₂ => ?_
    simp [listing,List.getElem?_eq_getElem h₂]
  have hcount : 3000 - (framed (kept files 0)).length =
      2999 - (framed (kept files 0)).length + 1 := by omega
  rw [hself,hnew,hpack,hcount]

/-- The message starts with a zero when it names nothing. -/
theorem head_listing {files : List Bytes} (hfiles : ∀ n ∈ files, n ≠ [] ∧ 0 ∉ n) :
    (listing files).toList.head? = some 0 ↔ kept files 0 = [] := by
  obtain ⟨k,hk⟩ := toList_listing files
  rw [hk]
  cases hkept : kept files 0 with
  | nil => simp [List.replicate_succ]
  | cons name names =>
    obtain ⟨hne,h0⟩ := hfiles name ((kept_sublist files 0).mem (by simp [hkept]))
    obtain ⟨b,name,rfl⟩ := List.exists_cons_of_ne_nil hne
    simp at h0 ⊢
    exact fun hb => h0.1 hb.symm

/-- `handleLs` sends the list of the names that it was given. -/
theorem runs_handleLs {config : ServerConfig} {m m' : Members} {tr : Trace} {e : ErrorCode}
    (h : Runs (handleLs config) m tr e m') : ∃ files ok,
      tr = [⟨.listDirectory config.backupDir,files⟩,sent m (listing (files.getD [])).toList ok] := by
  unfold handleLs sendDataResponse at h
  obtain ⟨files,tr₁,rfl,h₁⟩ := runs_listDirectory_bind.mp h
  obtain ⟨ok,rfl,-,-⟩ := runs_sendto.mp h₁
  exact ⟨files,ok,rfl⟩

end Server

namespace Client
variable {m m' : Members} {tr : Trace}

/-- The walk over names that are followed by a zero: it prints them, and stops behind the
last one. -/
theorem runs_printNames_framed {data : DataMsg} {fuel offset k : Nat} {names : List Bytes}
    (hnames : ∀ n ∈ names, n ≠ [] ∧ 0 ∉ n) (hfuel : names.length < fuel)
    (hdata : data.toList.drop offset = framed names ++ List.replicate (k + 1) 0)
    (h : Runs (printNames data fuel offset) m tr () m') :
    m'.listed = m.listed ++ names ∧ (∀ ev ∈ tr, StaysInside ev) ∧
      tr.length = names.length + 1 := by
  induction names generalizing fuel offset m tr with
  | nil =>
    obtain ⟨fuel,rfl⟩ := Nat.exists_eq_add_of_lt hfuel
    rw [printNames,readString,runs_bind_assoc] at h
    obtain ⟨beyond,tr₁,rfl,h₁⟩ := runs_ask_bind.mp h
    rw [runs_pure_bind] at h₁
    have hlen := congrArg List.length hdata
    have hempty : cString (data.toList.drop offset ++ beyond) = [] := by
      rw [hdata]
      rfl
    rw [if_pos hempty] at h₁
    obtain ⟨rfl,-,rfl⟩ := runs_pure.mp h₁
    refine ⟨(List.append_nil _).symm,List.forall_mem_singleton.mpr ?_,rfl⟩
    change (cString (data.toList.drop offset ++ beyond)).length < 3000 - offset
    rw [hempty]
    simp at hlen ⊢
    omega
  | cons name names ih =>
    obtain ⟨fuel,rfl⟩ : ∃ f, fuel = f + 1 := ⟨fuel - 1,by omega⟩
    obtain ⟨⟨hne,hzero⟩,hrest⟩ := List.forall_mem_cons.mp hnames
    rw [printNames,readString,runs_bind_assoc] at h
    obtain ⟨beyond,tr₁,rfl,h₁⟩ := runs_ask_bind.mp h
    rw [runs_pure_bind] at h₁
    have hlen := congrArg List.length hdata
    have hname : cString (data.toList.drop offset ++ beyond) = name := by
      rw [hdata,framed_cons]
      simp only [List.append_assoc,List.cons_append]
      exact cString_of_not_mem hzero
    have hnext : data.toList.drop (offset + name.length + 1) =
        framed names ++ List.replicate (k + 1) 0 := by
      rw [Nat.add_assoc,← List.drop_drop,hdata,framed_cons]
      simp
    rw [hname,if_neg hne] at h₁
    obtain ⟨hlisted,hin,hcount⟩ := ih hrest (by simpa using hfuel) hnext (runs_modify_bind.mp h₁)
    refine ⟨by simp [hlisted],List.forall_mem_cons.mpr ⟨?_,hin⟩,by simp [hcount]⟩
    change (cString (data.toList.drop offset ++ beyond)).length < 3000 - offset
    rw [hname]
    simp [framed_cons] at hlen
    omega

/-- The run of the client that receives this list. -/
theorem handleLs_prints {files : List Bytes} {sender : Addr} {e : ErrorCode}
    (hfiles : ∀ n ∈ files, n ≠ [] ∧ 0 ∉ n) (h : Runs handleLs m tr e m')
    (hgot : ⟨.recvfrom 3000,some (sender,(Server.listing files).toList)⟩ ∈ tr) :
    m'.listed = m.listed ++ kept files 0 ∧ (∀ ev ∈ tr, StaysInside ev) ∧
      tr.length = 2 + if kept files 0 = [] then 0 else (kept files 0).length + 1 := by
  have hnames : ∀ n ∈ kept files 0, n ≠ [] ∧ 0 ∉ n :=
    fun n hn => hfiles n ((kept_sublist files 0).mem hn)
  obtain ⟨k,hk⟩ := Server.toList_listing files
  rw [handleLs,sendCommand] at h
  obtain ⟨ok,tr₁,rfl,h₁⟩ := runs_sendto_bind.mp h
  replace hgot := (List.mem_cons.mp hgot).resolve_left (by simp)
  cases ok with
  | false =>
    obtain ⟨rfl,-,-⟩ := runs_pure.mp h₁
    cases hgot
  | true =>
  dsimp only at h₁
  rw [if_pos rfl,if_neg (by simp)] at h₁
  obtain ⟨r,tr₂,m₁,rfl,hlisted,hr⟩ := runs_receiveData_bind h₁
  have hhead : ⟨.recvfrom 3000,some (sender,(Server.listing files).toList)⟩ ∉ tr₂ →
      r = some (sender,(Server.listing files).toList) := by
    intro hno
    rcases List.mem_cons.mp hgot with he | hin
    · simpa using he.symm
    · exact absurd hin hno
  rcases hr with ⟨hempty,h₂⟩ | ⟨sender',d,rfl,h₂⟩
  · obtain ⟨rfl,-,-⟩ := runs_pure.mp h₂
    have hnil := hempty _ _ (hhead List.not_mem_nil).symm
    simp [hk] at hnil
  · dsimp only at h₂
    rw [if_neg (by simp)] at h₂
    have hmsg : d = (Server.listing files).toList → DataMsg.received d = Server.listing files :=
      fun hd => by rw [hd,DataMsg.received_toList]
    split at h₂
    · rename_i hzero
      obtain ⟨rfl,-,rfl⟩ := runs_pure.mp h₂
      rw [hmsg (Prod.mk.inj (Option.some.inj (hhead List.not_mem_nil))).2,
        Server.head_listing hfiles] at hzero
      simp [hzero,hlisted,StaysInside]
    · rename_i hzero
      obtain ⟨⟨⟩,m₃,tr₃,tr₄,hwalk,h₃,rfl⟩ := runs_bind.mp h₂
      obtain ⟨rfl,-,rfl⟩ := runs_pure.mp h₃
      rw [List.append_nil] at hhead ⊢
      have hd := hmsg (Prod.mk.inj (Option.some.inj (hhead (printNames_not_recvfrom hwalk)))).2
      rw [hd] at hwalk hzero
      rw [Server.head_listing hfiles] at hzero
      obtain ⟨hprinted,hin,hlen⟩ := runs_printNames_framed hnames (length_kept_lt files)
        (by rw [List.drop_zero,hk]) hwalk
      refine ⟨by rw [hprinted,hlisted],?_,?_⟩
      · simpa [StaysInside] using hin
      · simp [hzero,hlen]
        omega

theorem exists_printNames (data : DataMsg) (fuel offset : Nat) (m : Members) :
    ∃ tr m', Runs (printNames data fuel offset) m tr () m' := by
  induction fuel generalizing offset m with
  | zero => exact ⟨[],m,runs_pure.mpr ⟨rfl,rfl,rfl⟩⟩
  | succ fuel ih =>
    by_cases hempty : cString (data.toList.drop offset ++ []) = []
    · refine ⟨_,m,runs_bind_assoc.mpr (runs_ask_bind.mpr ⟨[],[],rfl,?_⟩)⟩
      rw [runs_pure_bind,if_pos hempty]
      exact runs_pure.mpr ⟨rfl,rfl,rfl⟩
    · obtain ⟨tr,m',h⟩ := ih (offset + (cString (data.toList.drop offset ++ [])).length + 1)
        { m with listed := m.listed ++ [cString (data.toList.drop offset ++ [])] }
      refine ⟨_,m',runs_bind_assoc.mpr (runs_ask_bind.mpr ⟨[],tr,rfl,?_⟩)⟩
      rw [runs_pure_bind,if_neg hempty]
      exact runs_modify_bind.mpr h

/-- Some run of the client receives any given answer. -/
theorem exists_handleLs (m : Members) (sender : Addr) {d : Bytes} (hd : d ≠ []) :
    ∃ tr e m', Runs handleLs m tr e m' ∧ ⟨.recvfrom 3000,some (sender,d)⟩ ∈ tr := by
  have hrest : ∃ tr m', Runs (if (DataMsg.received d).toList.head? = some 0 then pure .SUCCESS
      else do
        printNames (DataMsg.received d) 3000 0
        pure .SUCCESS) { m with serverAddr := sender } tr ErrorCode.SUCCESS m' := by
    split
    · exact ⟨[],_,runs_pure.mpr ⟨rfl,rfl,rfl⟩⟩
    · obtain ⟨tr,m',h⟩ :=
        exists_printNames (DataMsg.received d) 3000 0 { m with serverAddr := sender }
      exact ⟨_,m',runs_bind.mpr ⟨(),m',tr,[],h,runs_pure.mpr ⟨rfl,rfl,rfl⟩,rfl⟩⟩
  obtain ⟨tr,m',h⟩ := hrest
  refine ⟨⟨.sendto m.serverAddr (command .LS []).encode,true⟩ ::
    ⟨.recvfrom 3000,some (sender,d)⟩ :: tr,.SUCCESS,m',runs_sendto_bind.mpr ⟨true,_,rfl,?_⟩,by simp⟩
  rw [if_pos rfl,if_neg (by simp),receiveData,runs_bind_assoc]
  refine runs_recvfrom_bind.mpr (Or.inr ⟨sender,d,tr,rfl,?_⟩)
  rw [if_neg hd]
  refine runs_pure_bind.mpr ?_
  dsimp only
  rw [if_neg (by simp)]
  exact h

end Client

section Listing
variable {files : List Bytes}

/-- What the client prints are the names that the server kept, and it walks over them inside
of the message: one string for each name, and the one behind the last that is empty. -/
theorem listing_printed (hfiles : ∀ n ∈ files, n ≠ [] ∧ 0 ∉ n) :
    Server.packNames files 0 DataMsg.new.toList =
      (copies files 0).foldl writeCopy DataMsg.new.toList ∧
    (∀ copy ∈ copies files 0, copy.1 + copy.2.length < dataBufLen) ∧
    (kept files 0 = files ↔ (files.map fun n => n.length + 1).sum ≤ 2999) ∧
    ∀ (config : Server.ServerConfig) (ms ms' : Server.Members) (trs : Trace) (es : ErrorCode)
      (dest sender : Addr) (d : Bytes) (mc mc' : Client.Members) (trc : Trace) (ec : ErrorCode),
      Runs (Server.handleLs config) ms trs es ms' →
      ⟨.listDirectory config.backupDir,some files⟩ ∈ trs → ⟨.sendto dest d,true⟩ ∈ trs →
      Runs Client.handleLs mc trc ec mc' → ⟨.recvfrom 3000,some (sender,d)⟩ ∈ trc →
      mc'.listed = mc.listed ++ kept files 0 ∧ (∀ ev ∈ trc, StaysInside ev) ∧
        trc.length = 2 + if kept files 0 = [] then 0 else (kept files 0).length + 1 := by
  refine ⟨packNames_eq_copies _ _ _,copies_inside _ _,?_,?_⟩
  · rw [kept_eq_self (by decide),length_framed,dataBufLen]
    omega
  · intro config ms ms' trs es dest sender d mc mc' trc ec hserver hlist hsent hclient hgot
    obtain ⟨files',ok,rfl⟩ := Server.runs_handleLs hserver
    have hfiles' : files' = some files := by
      simp [Server.sent] at hlist
      exact hlist.symm
    have hd : d = (Server.listing files).toList := by
      rw [hfiles'] at hsent
      simp [Server.sent] at hsent
      exact hsent.1.2
    rw [hd] at hgot
    exact Client.handleLs_prints hfiles hclient hgot

theorem listing_printed_two : ∃ trc ec mc',
    Runs Client.handleLs ⟨Server.sampleAddr,[]⟩ trc ec mc' ∧ mc'.listed = [[97],[98]] := by
  have hserver : Runs (Server.handleLs Server.sampleConfig) (Server.init Server.sampleConfig)
      [⟨.listDirectory Server.sampleConfig.backupDir,some [[97],[98]]⟩,
        Server.sent (Server.init Server.sampleConfig) (Server.listing [[97],[98]]).toList true]
      .SUCCESS (Server.init Server.sampleConfig) :=
    runs_listDirectory_bind.mpr ⟨_,_,rfl,Server.runs_sendto.mpr ⟨true,rfl,rfl,rfl⟩⟩
  have hne : (Server.listing [[97],[98]]).toList ≠ [] := by simp
  obtain ⟨trc,ec,mc',hclient,hgot⟩ :=
    Client.exists_handleLs ⟨Server.sampleAddr,[]⟩ Server.sampleAddr hne
  have hfiles : ∀ n ∈ [[97],[98]], n ≠ [] ∧ (0 : UInt8) ∉ n := by decide
  have hall := (listing_printed hfiles).2.2.2 _ _ _ _ _ _ _ _ _ _ _ _
    hserver (List.mem_cons_self) (List.mem_cons_of_mem _ List.mem_cons_self) hclient hgot
  exact ⟨trc,ec,mc',hclient,hall.1⟩

end Listing

end NetworkLab.Backup
