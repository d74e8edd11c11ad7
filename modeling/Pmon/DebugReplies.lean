import Pmon.BptWatch
import Pmon.DebugPacket
import Pmon.DebugRequest

/-!
# Lengths of the replies to remote requests

A reply echoes two words of its request, an error code and a value. The longest reply to each
request is sent on some machine.
-/

namespace Pmon.DebugRequest
open BptTable (Env Table Slot Watchpoint)
open DebugPacket (MAXMSG)
variable {c : Config} {r : Request c} {s : State c} {adr : Option (BitVec 32)} {env : Env}

theorem length_hex_le {n k : ℕ} (hk : 0<k) (h : n<16^k) : (hex n).length≤k :=
  (Nat.length_toDigits_le_iff (by decide) hk).mpr h

theorem length_reply (pid req : List Char) (err val : ℕ) :
    (reply pid req err val).length =
      pid.length+1+req.length+(6+(hex err).length+(hex val).length) := by
  simp only [reply,List.length_append,List.length_cons,List.length_nil]
  omega

def Within (r : Request c) (out : Served c) (room : Option ℕ) : Prop :=
  ∀ msg∈out.replies, ∃ w∈room, msg.length≤r.pid.length+1+r.req.length+w

def Reaches (r : Request c) (out : Served c) (w : ℕ) : Prop :=
  ∃ msg∈out.replies, msg.length=r.pid.length+1+r.req.length+w

theorem within_done {err val w : ℕ} (h : 6+(hex err).length+(hex val).length≤w) :
    Within r (r.done err val s) (some w) := by
  intro msg hmsg
  obtain rfl := List.mem_singleton.mp hmsg
  refine ⟨w,rfl,?_⟩
  rw [Request.answer,length_reply]
  omega

theorem reaches_done {err val w : ℕ} (h : 6+(hex err).length+(hex val).length=w) :
    Reaches r (r.done err val s) w := by
  refine ⟨_,List.mem_singleton_self _,?_⟩
  rw [Request.answer,length_reply,h]

theorem within_done_word (r : Request c) (v : BitVec 32) (s : State c) :
    Within r (r.done 0 v.toNat s) (some 15) :=
  within_done (by
    have hlen : (hex v.toNat).length≤8 := length_hex_le (by decide) v.isLt
    have hzero : (hex 0).length=1 := by decide
    omega)

theorem within_done_reg (r : Request c) (v : BitVec c.width) (s : State c) :
    Within r (r.done 0 v.toNat s) (some 23) :=
  within_done (by
    have hwidth : c.width≤64 := by
      unfold Config.width
      split <;> decide
    have hlt : v.toNat<16^16 := lt_of_lt_of_le v.isLt
      (Nat.pow_le_pow_right (by decide) hwidth |>.trans (by decide))
    have hlen := length_hex_le (by decide) hlt
    have hzero : (hex 0).length=1 := by decide
    omega)

theorem within_bad (r : Request c) (s : State c) : Within r (r.bad s) (some 16) :=
  within_done (by decide)

theorem reaches_bad (r : Request c) (s : State c) : Reaches r (r.bad s) 16 :=
  reaches_done (by decide)

def bptRoom (set : Bool) (adr : Option (BitVec 32)) : Option (List Char) → ℕ
  | some ('n' :: _) => 8
  | some ('q' :: _) =>
    -- no processor has more than two watchpoints
    if adr.all (·.toNat<2) then 10 else 8
  | some ('u' :: _) => if set then 16 else 8
  | _ => 16

theorem bptRoom_of_ne {set : Bool} {ch : Char} {rest : List Char} (hn : ch ≠ 'n') (hq : ch ≠ 'q')
    (hu : ch ≠ 'u') :
    bptRoom set adr (some (ch::rest))=16 := by
  unfold bptRoom
  split
  · rename_i h
    cases h
    exact absurd rfl hn
  · rename_i h
    cases h
    exact absurd rfl hq
  · rename_i h
    cases h
    exact absurd rfl hu
  · rfl

def Op.room (adr : Option (BitVec 32)) (sub : Option (List Char)) : Op → Option ℕ
  | .readMem _ | .writeMem _ | .readReg | .writeReg | .readRegs => some 15
  | .readReg64 | .writeReg64 | .readRegs64 => some 23
  | .step | .cont => none
  | .exit => some 8
  | .bpt set => some (bptRoom set adr sub)
  | .unknown => some 16

def room (c : Config) (av : List (List Char)) : Option ℕ :=
  if av.length<4 then some 16
  else
    match av[1]? with
    | some [ch] => (Op.ofChar c ch).room (av[2]?.bind fun p => Rsa.ator 32 p 0) av[4]?
    | _ => some 16

structure Installed (env : Env) (table : Table) : Prop where
  funcs : env.funcs∈[BptTable.r4k,BptTable.r4650,BptTable.rm7k,BptTable.r5k]
  length_bpt : table.bpt.length=BptTable.MAX_BPT
  capabilities : table.watchpoints.map (·.capabilities)=env.funcs.capabilities

theorem Installed.length_watchpoints {table : Table} (h : Installed env table) :
    table.watchpoints.length≤2 := by
  rw [←List.length_map (·.capabilities),h.capabilities]
  have hfuncs := h.funcs
  simp only [List.mem_cons,List.not_mem_nil,or_false] at hfuncs
  rcases hfuncs with h | h | h | h <;> rw [h] <;> decide

theorem Installed.capabilities_lt {table : Table} (h : Installed env table) (wpnum : BitVec 32) :
    mipsWatchpointCapabilities table wpnum < if wpnum.toNat<2 then 16^3 else 1 := by
  have hall : ∀ cap∈table.watchpoints.map (·.capabilities), cap<16^3 := by
    have hfuncs := h.funcs
    simp only [List.mem_cons,List.not_mem_nil,or_false] at hfuncs
    rw [h.capabilities]
    rcases hfuncs with h | h | h | h <;> rw [h] <;> decide
  have hlen := h.length_watchpoints
  unfold mipsWatchpointCapabilities
  split
  · split <;> decide
  · split
    · cases hget : table.watchpoints[wpnum.toNat]? with
      | none => decide
      | some wp => exact hall _ (List.mem_map_of_mem (List.mem_of_getElem? hget))
    · rw [List.getElem?_eq_none (by omega)]
      decide

theorem serveBpt_within {set : Bool} (h : Installed env s.table) (hadr : ∀ a∈adr, r.adr=a) :
    Within r (serveBpt env r set s) (some (bptRoom set adr r.sub)) := by
  unfold serveBpt
  split
  · rename_i heq
    rw [heq]
    exact within_bad r s
  · rename_i heq
    rw [heq]
    exact within_bad r s
  · rename_i heq
    have hlen : (hex s.table.watchpoints.length).length≤1 :=
      length_hex_le (by decide) (by have := h.length_watchpoints; omega)
    have hzero : (hex 0).length=1 := by decide
    rw [heq]
    exact within_done (by change _≤8; omega)
  · rename_i heq
    have hzero : (hex 0).length=1 := by decide
    have hcap := h.capabilities_lt r.adr
    rw [heq]
    refine within_done ?_
    change _ ≤ if adr.all (·.toNat<2) then 10 else 8
    by_cases hlt : r.adr.toNat<2
    · have hall : adr.all (·.toNat<2)=true := by
        cases adr with
        | none => rfl
        | some a => simpa [hadr a rfl] using hlt
      rw [if_pos hlt] at hcap
      have hdigits := length_hex_le (by decide) hcap
      rw [if_pos hall]
      omega
    · rw [if_neg hlt] at hcap
      rw [Nat.lt_one_iff.mp hcap]
      split <;> omega
  · rename_i heq
    rw [heq]
    change Within r _ (some (if set then 16 else 8))
    split
    · exact within_bad r s
    · exact within_done (by decide)
  · rename_i ch rest hn hq hu heq
    rw [heq,bptRoom_of_ne hn hq hu]
    split
    · exact within_bad r s
    · dsimp only
      split
      all_goals
        split
        · exact within_done (by decide)
        · exact within_bad r _

theorem serve_within {wild : BitVec c.width} (h : Installed env s.table)
    (hadr : ∀ a∈adr, r.adr=a) (op : Op) :
    Within r (serve env wild r op s) (op.room adr r.sub) := by
  have hfault : Within r (r.done 0xffffffff EFAULT s) (some 15) := within_done (by decide)
  cases op with
  | readMem cell =>
    change Within r (serveRead r cell s) _
    unfold serveRead
    split
    · exact within_done_word _ _ _
    · exact hfault
  | writeMem cell =>
    change Within r (serveWrite r cell s) _
    unfold serveWrite
    split
    · exact within_done_word _ _ _
    · exact hfault
  | readReg => exact within_done_word _ _ _
  | readReg64 => exact within_done_reg _ _ _
  | writeReg => exact within_done_word _ _ _
  | writeReg64 => exact within_done_reg _ _ _
  | readRegs =>
    intro msg hmsg
    obtain ⟨v,-,rfl⟩ := List.mem_map.mp hmsg
    exact within_done_word r _ s _ (List.mem_singleton_self _)
  | readRegs64 =>
    intro msg hmsg
    obtain ⟨v,-,rfl⟩ := List.mem_map.mp hmsg
    exact within_done_reg r _ s _ (List.mem_singleton_self _)
  | step => exact fun msg hmsg => absurd hmsg List.not_mem_nil
  | cont => exact fun msg hmsg => absurd hmsg List.not_mem_nil
  | exit =>
    intro msg hmsg
    exact within_done (s := s) (w := 8) (by decide) msg hmsg
  | bpt set => exact serveBpt_within h hadr
  | unknown => exact within_bad r s

theorem request_adr {junk : Junk c} {av : List (List Char)} :
    ∀ a∈av[2]?.bind fun p => Rsa.ator 32 p 0, (request junk av).adr=a := by
  intro a ha
  rw [request,Option.mem_def.mp ha]
  rfl

theorem doReq_cases (env : Env) (junk : Junk c) (av : List (List Char)) (s : State c) :
    doReq env junk av s=(request junk av).bad s ∧ room c av=some 16 ∨
      ∃ ch, Asks ch av ∧
        room c av=(Op.ofChar c ch).room (av[2]?.bind fun p => Rsa.ator 32 p 0) av[4]? := by
  by_cases hfew : av.length<4
  · exact .inl ⟨if_pos hfew,if_pos hfew⟩
  · obtain ⟨req,hreq⟩ : ∃ req, av[1]?=some req := ⟨_,List.getElem?_eq_getElem (by omega)⟩
    have hword : (request junk av).req=req := by
      rw [request,hreq]
      rfl
    unfold doReq room
    rw [if_neg hfew,if_neg hfew,hword,hreq]
    rcases req with _ | ⟨ch,_ | ⟨ch',rest⟩⟩
    · exact .inl ⟨rfl,rfl⟩
    · exact .inr ⟨ch,⟨by omega,hreq⟩,rfl⟩
    · exact .inl ⟨rfl,rfl⟩

theorem doReq_within {junk : Junk c} {av : List (List Char)} (h : Installed env s.table) :
    Within (request junk av) (doReq env junk av s) (room c av) := by
  rcases doReq_cases env junk av s with ⟨hbad,hroom⟩ | ⟨ch,hask,hroom⟩
  · rw [hbad,hroom]
    exact within_bad _ _
  · rw [hask.doReq_eq,hroom]
    exact serve_within h request_adr _

def longEnv : Env := {BptTable.plainEnv with funcs := BptTable.r4650}
def longJunk : Junk c := ⟨0,0,BitVec.allOnes _, fun _ => List.replicate MAXMSG 'a'⟩

def longState (c : Config) (adr : ℕ) : State c where
  mem _ := 0xff
  regs _ := BitVec.allOnes _
  table := ⟨List.replicate BptTable.MAX_BPT ⟨adr,0,0,0,none,true⟩,BptTable.r4650.init,[],[]⟩

theorem installed_long (c : Config) (adr : ℕ) : Installed longEnv (longState c adr).table where
  funcs := by
    change BptTable.r4650∈_
    simp only [List.mem_cons,true_or,or_true]
  length_bpt := List.length_replicate
  capabilities := rfl

theorem load_long (cell : Cell) (adr adr' : ℕ) :
    load c cell (longState c adr).mem adr'=BitVec.allOnes 32 := by
  unfold load
  dsimp only [longState]
  cases cell <;> cases c.mipseb <;> decide

theorem getdbgreg_long (adr n : ℕ) :
    (getdbgreg (longState c adr).regs n 4).setWidth 32=BitVec.allOnes 32 ∧
      getdbgreg (longState c adr).regs n 8=BitVec.allOnes _ := by
  have hle := c.le_width
  constructor
  · unfold getdbgreg
    dsimp only [longState]
    split
    · rename_i hhalf
      have hwidth : c.width=64 := if_pos hhalf.2.1
      have hshift : halfShift c n≤32 := by
        unfold halfShift
        dsimp only
        split <;> omega
      ext i hi
      simp only [BitVec.getElem_allOnes,BitVec.getElem_setWidth,BitVec.getLsbD_setWidth,
        BitVec.getLsbD_extractLsb',BitVec.getLsbD_allOnes,Bool.and_eq_true,decide_eq_true_eq]
      omega
    · ext i hi
      simp only [BitVec.getElem_allOnes,BitVec.getElem_setWidth,BitVec.getLsbD_allOnes,
        decide_eq_true_eq]
      omega
  · have hnot : ¬ isHalf c n 8 := fun h => absurd h.2.2.2.2 (by decide)
    unfold getdbgreg
    rw [if_neg hnot]
    rfl

theorem putdbgreg_fst (regs : Regs c) (n size : ℕ) (val : BitVec c.width) :
    (putdbgreg regs n size val).1=getdbgreg regs n size := by
  unfold putdbgreg getdbgreg
  split <;> rfl

theorem full_refuses {adr adr' : ℕ} (hne : adr≠adr') (hused : adr≠Go.NO_BPT) (c : Config)
    (kind len : ℕ) :
    (BptTable.clrbpt kind adr' len (longState c adr).table).1=false ∧
      (BptTable.setbpt longEnv kind adr' len (longState c adr).table).1=false := by
  have hsearch (p : Slot → Bool) (hp : p ⟨adr,0,0,0,none,true⟩=false) (n : ℕ) :
      BptTable.search p (List.replicate n ⟨adr,0,0,0,none,true⟩)=none := by
    induction n with
    | zero => rfl
    | succ n ih =>
      rw [List.replicate_succ,BptTable.search,hp,if_neg Bool.false_ne_true,ih]
      rfl
  have htable : (longState c adr).table.bpt =
      List.replicate BptTable.MAX_BPT ⟨adr,0,0,0,none,true⟩ := rfl
  have hclr : BptTable.clrbpt kind adr' len (longState c adr).table =
      (false,(longState c adr).table) := by
    unfold BptTable.clrbpt
    rw [htable,hsearch _ (by simp [BptTable.Slot.same,hne])]
  refine ⟨by rw [hclr],?_⟩
  have henter : BptTable.enter longEnv kind adr' len (longState c adr).table =
      (none,(longState c adr).table) := by
    unfold BptTable.enter
    rw [hclr]
    dsimp only
    rw [htable,hsearch _ (by simp [hused])]
  unfold BptTable.setbpt
  rw [henter]

theorem length_capabilities_long (adr : ℕ) (wpnum : BitVec 32) :
    (hex (mipsWatchpointCapabilities (longState c adr).table wpnum)).length =
      if wpnum.toNat<2 then 3 else 1 := by
  by_cases hlt : wpnum.toNat<2
  · rw [if_pos hlt]
    have hcases : wpnum=0 ∨ wpnum=1 := by
      rcases (by omega : wpnum.toNat=0 ∨ wpnum.toNat=1) with h | h
      · exact .inl (BitVec.eq_of_toNat_eq h)
      · exact .inr (BitVec.eq_of_toNat_eq h)
    rcases hcases with rfl | rfl
    · have hcap : mipsWatchpointCapabilities (longState c adr).table 0=0x124 := rfl
      rw [hcap]
      decide
    · have hcap : mipsWatchpointCapabilities (longState c adr).table 1=0x123 := rfl
      rw [hcap]
      decide
  · rw [if_neg hlt]
    have hcap : mipsWatchpointCapabilities (longState c adr).table wpnum=0 := by
      have hlen : (longState c adr).table.watchpoints.length=2 := rfl
      unfold mipsWatchpointCapabilities
      rw [List.getElem?_eq_none (by omega)]
      split <;> rfl
    rw [hcap]
    decide

def elsewhere (adr : ℕ) : ℕ := if adr=0 then 4 else 0

theorem elsewhere_ne (adr : ℕ) : elsewhere adr≠adr ∧ elsewhere adr≠Go.NO_BPT := by
  unfold elsewhere
  split
  · exact ⟨by omega,by decide⟩
  · exact ⟨by omega,by decide⟩

theorem serveBpt_reaches {set : Bool} (hadr : r.adr=adr.getD 0) :
    Reaches r (serveBpt longEnv r set (longState c (elsewhere r.adr.toNat)))
      (bptRoom set adr r.sub) := by
  unfold serveBpt
  split
  · rename_i heq
    rw [heq]
    exact reaches_bad r _
  · rename_i heq
    rw [heq]
    exact reaches_bad r _
  · rename_i heq
    rw [heq]
    have hcount : (longState c (elsewhere r.adr.toNat)).table.watchpoints.length=2 := rfl
    rw [hcount]
    exact reaches_done (show 6+(hex 0).length+(hex 2).length=8 by decide)
  · rename_i heq
    rw [heq]
    refine reaches_done ?_
    have hzero : (hex 0).length=1 := by decide
    have hiff : adr.all (·.toNat<2)=true ↔ r.adr.toNat<2 := by
      rw [hadr]
      cases adr with
      | none => decide
      | some a => exact decide_eq_true_iff
    change _ = if adr.all (·.toNat<2) then 10 else 8
    rw [length_capabilities_long,hzero]
    by_cases hlt : r.adr.toNat<2
    · rw [if_pos hlt,if_pos (hiff.mpr hlt)]
    · rw [if_neg hlt,if_neg (fun h => hlt (hiff.mp h))]
  · rename_i heq
    rw [heq]
    change Reaches r _ (if set then 16 else 8)
    split
    · exact reaches_bad r _
    · exact reaches_done (by decide)
  · rename_i ch rest hn hq hu heq
    rw [heq,bptRoom_of_ne hn hq hu]
    split
    · exact reaches_bad r _
    · rename_i kind _
      obtain ⟨hne,hused⟩ := elsewhere_ne r.adr.toNat
      have hrefuse := full_refuses hne hused c kind (r.dat.setWidth 32 : BitVec 32).toNat
      dsimp only
      cases set with
      | false =>
        rw [if_neg Bool.false_ne_true,hrefuse.1]
        exact reaches_bad r _
      | true =>
        rw [if_pos rfl,hrefuse.2]
        exact reaches_bad r _

def Op.wide : Op → Bool
  | .readReg64 | .writeReg64 | .readRegs64 => true
  | _ => false

theorem Op.mips3_of_wide {ch : Char} (h : (Op.ofChar c ch).wide=true) : c.mips3=true := by
  unfold Op.ofChar at h
  split at h
  all_goals first
    | cases h
    | split at h
      · assumption
      · cases h

theorem serve_reaches (hadr : r.adr=adr.getD 0) {op : Op}
    (hwide : op.wide=true → c.mips3=true) {w : ℕ} (hw : w∈op.room adr r.sub) :
    Reaches r (serve longEnv (BitVec.allOnes _) r op (longState c (elsewhere r.adr.toNat))) w := by
  have hfault (s : State c) : Reaches r (r.done 0xffffffff EFAULT s) 15 := reaches_done (by decide)
  have hword {v : BitVec 32} (hv : v=BitVec.allOnes 32) (s : State c) :
      Reaches r (r.done 0 v.toNat s) 15 := by
    rw [hv]
    exact reaches_done (by decide)
  have hlong {v : BitVec c.width} (hv : v=BitVec.allOnes _) (hmips : c.mips3=true)
      (s : State c) : Reaches r (r.done 0 v.toNat s) 23 := by
    have hwidth : c.width=64 := if_pos hmips
    rw [hv,BitVec.toNat_allOnes,hwidth]
    exact reaches_done (by decide)
  obtain ⟨hreg,hreg64⟩ := getdbgreg_long (c := c) (elsewhere r.adr.toNat) r.adr.toNat
  have hones : (BitVec.allOnes c.width).setWidth 32=BitVec.allOnes 32 := by
    have hle := c.le_width
    ext i hi
    simp only [BitVec.getElem_allOnes,BitVec.getElem_setWidth,BitVec.getLsbD_allOnes,
      decide_eq_true_eq]
    omega
  -- the first bit of the mask is answered with ones, set or not
  have hfirst (mask : ℕ) : BitVec.allOnes c.width ∈
      regsValues (longState c (elsewhere r.adr.toNat)).regs (BitVec.allOnes _) mask := by
    rw [regsValues,regsLoop]
    split <;> exact List.mem_cons_self
  cases op with
  | readMem cell =>
    cases hw
    change Reaches r (serveRead r cell _) _
    unfold serveRead
    split
    · exact hword (load_long ..) _
    · exact hfault _
  | writeMem cell =>
    cases hw
    change Reaches r (serveWrite r cell _) _
    unfold serveWrite
    split
    · exact hword (load_long ..) _
    · exact hfault _
  | readReg =>
    cases hw
    exact hword hreg _
  | readReg64 =>
    cases hw
    exact hlong hreg64 (hwide rfl) _
  | writeReg =>
    cases hw
    have hold : ((putdbgreg (longState c (elsewhere r.adr.toNat)).regs r.adr.toNat 4
        r.longDat).1).setWidth 32=BitVec.allOnes 32 := by rw [putdbgreg_fst,hreg]
    exact hword hold _
  | writeReg64 =>
    cases hw
    have hold : (putdbgreg (longState c (elsewhere r.adr.toNat)).regs r.adr.toNat 8
        r.dat).1=BitVec.allOnes _ := by rw [putdbgreg_fst,hreg64]
    exact hlong hold (hwide rfl) _
  | readRegs =>
    cases hw
    obtain ⟨msg,hmsg,hlen⟩ := hword hones (longState c 0)
    obtain rfl := List.mem_singleton.mp hmsg
    exact ⟨_,List.mem_map.mpr ⟨_,hfirst _,rfl⟩,hlen⟩
  | readRegs64 =>
    cases hw
    obtain ⟨msg,hmsg,hlen⟩ := hlong rfl (hwide rfl) (longState c 0)
    obtain rfl := List.mem_singleton.mp hmsg
    exact ⟨_,List.mem_map.mpr ⟨_,hfirst _,rfl⟩,hlen⟩
  | step => cases hw
  | cont => cases hw
  | exit =>
    cases hw
    obtain ⟨msg,hmsg,hlen⟩ := reaches_done (r := r) (s := longState c 0) (w := 8)
      (show 6+(hex 0).length+(hex 0).length=8 by decide)
    exact ⟨msg,hmsg,hlen⟩
  | bpt set =>
    cases hw
    exact serveBpt_reaches hadr
  | unknown =>
    cases hw
    exact reaches_bad r _

theorem doReq_reaches {av : List (List Char)} {w : ℕ} (hw : w∈room c av) :
    ∃ s : State c, Installed longEnv s.table ∧
      Reaches (request longJunk av) (doReq longEnv longJunk av s) w := by
  refine ⟨longState c (elsewhere (request (longJunk : Junk c) av).adr.toNat),
    installed_long c _,?_⟩
  rcases doReq_cases longEnv (longJunk : Junk c) av _ with ⟨hbad,hroom⟩ | ⟨ch,hask,hroom⟩
  · rw [hroom] at hw
    cases hw
    rw [hbad]
    exact reaches_bad _ _
  · rw [hroom] at hw
    rw [hask.doReq_eq]
    exact serve_reaches rfl Op.mips3_of_wide hw

end Pmon.DebugRequest
