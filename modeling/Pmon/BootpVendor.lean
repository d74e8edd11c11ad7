import Pmon.Bootp

/-!
# Vendor areas after RFC 1048

An area is a list of items, each a tag, a length and a value; `vend_rfc1048` reads a length behind a
pad too.
-/

namespace Pmon.Bootp
open List Function
variable {v : List UInt8} {cp fuel : ℕ} {mem : ℕ → UInt8}

structure Item where
  tag : UInt8
  value : List UInt8

def Flag.fits : Flag → ℕ → Bool
  | .ip _, size => size=4
  | .name n, size => size<nameSize n

def Item.sets (x : Item) (f : Flag) : Bool := itemOf x.tag=some f && f.fits x.value.length

def firstOf (f : Flag) (xs : List Item) : Option (List UInt8) :=
  (xs.find? (·.sets f)).map Item.value

def expected (xs : List Item) (b : Bootparams) : Bootparams where
  has f := b.has f || (firstOf f xs).isSome
  ip i := if b.has (.ip i) then b.ip i else
    match firstOf (.ip i) xs with
    | some v => addrOf v
    | none => b.ip i
  name n := if b.has (.name n) then b.name n else
    match firstOf (.name n) xs with
    | some v => putName v (b.name n)
    | none => b.name n

def Bootparams.set (b : Bootparams) (v : List UInt8) : Flag → Bootparams
  | .ip i => b.setIp i (addrOf v)
  | .name n => b.setName n (putName v (b.name n))

def takeItem (b : Bootparams) (x : Item) : Bootparams :=
  match itemOf x.tag with
  | some f => if f.fits x.value.length=true ∧ b.has f=false then b.set x.value f else b
  | none => b

@[simp] theorem length_bytesAt (mem : ℕ → UInt8) (pos n : ℕ) : (bytesAt mem pos n).length=n := by
  rw [bytesAt,length_map,length_range]

theorem vendItem_fst (mem : ℕ → UInt8) (tag : UInt8) (size cp : ℕ) (b : Bootparams) :
    (vendItem mem tag size cp b).1=takeItem b ⟨tag,bytesAt mem cp size⟩ := by
  rw [vendItem,takeItem]
  cases itemOf tag with
  | none => rfl
  | some f =>
    cases f with
    | ip i =>
      simp only [Flag.fits,length_bytesAt,decide_eq_true_iff]
      split
      · rename_i h
        rw [h.1]
        rfl
      · rfl
    | name n =>
      simp only [Flag.fits,length_bytesAt,decide_eq_true_iff]
      split <;> rfl

theorem firstOf_cons (f : Flag) (x : Item) (xs : List Item) :
    firstOf f (x::xs) = if x.sets f then some x.value else firstOf f xs := by
  rw [firstOf,find?_cons]
  cases x.sets f <;> rfl

theorem firstOf_eq_some {f : Flag} {xs : List Item} (h : firstOf f xs=some v) :
    f.fits v.length=true := by
  obtain ⟨x,hx,rfl⟩ := Option.map_eq_some_iff.mp h
  have hsets := find?_some hx
  rw [Item.sets,Bool.and_eq_true] at hsets
  exact hsets.2

theorem Item.sets_iff (x : Item) (f : Flag) :
    x.sets f=true ↔ itemOf x.tag=some f ∧ f.fits x.value.length=true := by
  rw [Item.sets,Bool.and_eq_true,decide_eq_true_iff]

theorem takeItem_of_sets {x : Item} {f : Flag} (h : x.sets f=true) (b : Bootparams) :
    takeItem b x = if b.has f=false then b.set x.value f else b := by
  obtain ⟨hitem,hfits⟩ := (x.sets_iff f).mp h
  rw [takeItem,hitem]
  simp only [hfits,true_and]

theorem takeItem_cases (b : Bootparams) (x : Item) :
    takeItem b x=b ∨ ∃ f, x.sets f=true ∧ takeItem b x=b.set x.value f := by
  rw [takeItem]
  cases hitem : itemOf x.tag with
  | none => exact .inl rfl
  | some f =>
    dsimp only
    split
    · rename_i h
      exact .inr ⟨f,(x.sets_iff f).mpr ⟨hitem,h.1⟩,rfl⟩
    · exact .inl rfl

@[simp] theorem set_has (b : Bootparams) (v : List UInt8) (f : Flag) :
    (b.set v f).has=update b.has f true := by
  cases f <;> rfl

theorem set_ip_of_ne (b : Bootparams) (v : List UInt8) {f : Flag} {i : Ip} (h : f ≠ .ip i) :
    (b.set v f).ip i=b.ip i := by
  cases f with
  | ip j => exact update_of_ne (fun hij => h (by rw [hij])) _ _
  | name n => rfl

theorem set_name_of_ne (b : Bootparams) (v : List UInt8) {f : Flag} {n : Name} (h : f ≠ .name n) :
    (b.set v f).name n=b.name n := by
  cases f with
  | ip i => rfl
  | name m => exact update_of_ne (fun hnm => h (by rw [hnm])) _ _

theorem takeItem_of_not_sets {x : Item} {f : Flag} (h : x.sets f=false) (b : Bootparams) :
    (takeItem b x).has f=b.has f ∧ (∀ i, f = .ip i → (takeItem b x).ip i=b.ip i) ∧
      ∀ n, f = .name n → (takeItem b x).name n=b.name n := by
  rcases takeItem_cases b x with hsame | ⟨g,hg,hset⟩
  · rw [hsame]
    exact ⟨rfl,fun _ _ => rfl,fun _ _ => rfl⟩
  · have hne : g≠f := by
      rintro rfl
      rw [h] at hg
      cases hg
    rw [hset]
    refine ⟨?_,fun i hi => ?_,fun n hn => ?_⟩
    · rw [set_has,update_of_ne hne.symm]
    · exact set_ip_of_ne b x.value (hi ▸ hne)
    · exact set_name_of_ne b x.value (hn ▸ hne)

theorem expected_cons (x : Item) (xs : List Item) (b : Bootparams) :
    expected (x::xs) b=expected xs (takeItem b x) := by
  ext1
  · funext f
    dsimp only [expected]
    rw [firstOf_cons]
    cases hsets : x.sets f with
    | true =>
      rw [takeItem_of_sets hsets]
      cases hhas : b.has f <;> simp [hhas]
    | false => simp [(takeItem_of_not_sets hsets b).1]
  · funext i
    dsimp only [expected]
    rw [firstOf_cons]
    cases hsets : x.sets (.ip i) with
    | true =>
      rw [takeItem_of_sets hsets]
      cases hhas : b.has (.ip i) <;> simp [hhas,Bootparams.set]
    | false =>
      obtain ⟨hhas,hip,-⟩ := takeItem_of_not_sets hsets b
      rw [hhas,hip i rfl]
      rfl
  · funext n
    dsimp only [expected]
    rw [firstOf_cons]
    cases hsets : x.sets (.name n) with
    | true =>
      rw [takeItem_of_sets hsets]
      cases hhas : b.has (.name n) <;> simp [hhas,Bootparams.set]
    | false =>
      obtain ⟨hhas,-,hname⟩ := takeItem_of_not_sets hsets b
      rw [hhas,hname n rfl]
      rfl

theorem foldl_takeItem (xs : List Item) (b : Bootparams) : xs.foldl takeItem b=expected xs b := by
  induction xs generalizing b with
  | nil =>
    ext1
    · funext f
      exact (Bool.or_false _).symm
    · funext i
      exact (ite_self _).symm
    · funext n
      exact (ite_self _).symm
  | cons x xs ih => rw [foldl_cons,ih,expected_cons]

def seenFrom (mem : ℕ → UInt8) (ep : ℕ) : ℕ → ℕ → List Item
  | 0, _ => []
  | fuel+1, cp =>
    if cp<ep then
      if mem cp=tagEnd then []
      else
        let size := (mem (cp+1)).toNat
        ⟨mem cp,bytesAt mem (cp+2) size⟩::seenFrom mem ep fuel (cp+2+size)
    else []

def seen (mem : ℕ → UInt8) : List Item := seenFrom mem vendSize vendSize 4

theorem vendLoop_fst (mem : ℕ → UInt8) (ep fuel cp : ℕ) (b : Bootparams) :
    (vendLoop mem ep fuel cp b).1=(seenFrom mem ep fuel cp).foldl takeItem b := by
  induction fuel generalizing cp b with
  | zero => rfl
  | succ fuel ih =>
    rw [vendLoop,seenFrom]
    split
    · dsimp only
      split
      · rfl
      · rw [ih,vendItem_fst,foldl_cons]
    · rfl

theorem vendRfc1048_fst (mem : ℕ → UInt8) (b : Bootparams) :
    (vendRfc1048 mem b).1=expected (seen mem) b := by
  rw [vendRfc1048,vendLoop_fst,foldl_takeItem,seen]

inductive Element where
  | pad
  | item (x : Item)

def Element.encode : Element → List UInt8
  | .pad => [0]
  | .item x => x.tag :: UInt8.ofNat x.value.length::x.value

def itemsOf : List Element → List Item
  | [] => []
  | .pad::es => itemsOf es
  | .item x::es => x::itemsOf es

def Element.Valid : Element → Prop
  | .pad => True
  | .item x => x.tag≠0 ∧ x.tag≠tagEnd ∧ x.value.length<256

structure Holds (mem : ℕ → UInt8) (cp : ℕ) (es : List Element) : Prop where
  valid : ∀ e∈es, e.Valid
  bytes : bytesAt mem cp ((es.flatMap Element.encode).length+1) =
    es.flatMap Element.encode++[tagEnd]
  inside : cp+((es.flatMap Element.encode).length+1)≤vendSize

structure WellFormed (mem : ℕ → UInt8) (es : List Element) : Prop where
  cookie : bytesAt mem 0 4=[99,130,83,99]
  holds : Holds mem 4 es

theorem addrOf_injective {w : List UInt8} (hv : v.length=4) (hw : w.length=4)
    (h : addrOf v=addrOf w) : v=w := by
  obtain ⟨a,b,c,d,rfl⟩ := length_eq_four.mp hv
  obtain ⟨a',b',c',d',rfl⟩ := length_eq_four.mp hw
  have htoNat := congrArg BitVec.toNat h
  simp only [addrOf,foldl_cons,foldl_nil,BitVec.toNat_ofNat] at htoNat
  have := a.toNat_lt
  have := b.toNat_lt
  have := c.toNat_lt
  have := d.toNat_lt
  have := a'.toNat_lt
  have := b'.toNat_lt
  have := c'.toNat_lt
  have := d'.toNat_lt
  have hbytes : a.toNat = a'.toNat ∧ b.toNat = b'.toNat ∧ c.toNat = c'.toNat ∧ d.toNat = d'.toNat := by
    omega
  obtain ⟨ha,hb,hc,hd⟩ := hbytes
  rw [UInt8.toNat_inj.mp ha,UInt8.toNat_inj.mp hb,UInt8.toNat_inj.mp hc,UInt8.toNat_inj.mp hd]

theorem length_le_of_putName_eq {size : ℕ} {w : List UInt8} (hw : w.length<size)
    (h : putName v (List.replicate size 1)=putName w (List.replicate size 1)) :
    w.length≤v.length := by
  by_contra hlt
  have hget := congrArg (fun l => l[w.length]?) h
  have hleft : (putName v (List.replicate size 1))[w.length]?=some 1 := by
    have hindex : w.length-v.length=(w.length-v.length-1)+1 := by omega
    rw [putName,getElem?_append_right (by omega),hindex,getElem?_cons_succ,
      drop_replicate,getElem?_replicate,if_pos (by omega)]
  have hright : (putName w (List.replicate size 1))[w.length]?=some 0 := by
    rw [putName,getElem?_append_right le_rfl,Nat.sub_self,getElem?_cons_zero]
  rw [hleft,hright] at hget
  cases hget

theorem putName_injective {size : ℕ} {w : List UInt8} (hv : v.length<size) (hw : w.length<size)
    (h : putName v (List.replicate size 1)=putName w (List.replicate size 1)) : v=w := by
  have hlength := le_antisymm (length_le_of_putName_eq hv h.symm) (length_le_of_putName_eq hw h)
  exact (append_inj h hlength).1

def probe : Bootparams := ⟨fun _ => false, fun _ => 0, fun n => List.replicate (nameSize n) 1⟩

theorem expected_eq_iff {xs ys : List Item} :
    (∀ b, expected xs b=expected ys b) ↔ ∀ f, firstOf f xs=firstOf f ys := by
  constructor
  · intro h f
    have hprobe := h probe
    have hhas : (firstOf f xs).isSome=(firstOf f ys).isSome := by
      simpa [expected,probe] using congrFun (congrArg Bootparams.has hprobe) f
    cases hx : firstOf f xs with
    | none =>
      rw [hx] at hhas
      exact (Option.isNone_iff_eq_none.mp (by simp [←Option.not_isSome,←hhas])).symm
    | some v =>
      rw [hx,Option.isSome_some] at hhas
      obtain ⟨w,hy⟩ := Option.isSome_iff_exists.mp hhas.symm
      have hv := firstOf_eq_some hx
      have hw := firstOf_eq_some hy
      rw [hy]
      cases f with
      | ip i =>
        have hip := congrFun (congrArg Bootparams.ip hprobe) i
        simp only [expected,probe,hx,hy] at hip
        rw [addrOf_injective (of_decide_eq_true hv) (of_decide_eq_true hw) hip]
      | name n =>
        have hname := congrFun (congrArg Bootparams.name hprobe) n
        simp only [expected,probe,hx,hy] at hname
        rw [putName_injective (of_decide_eq_true hv) (of_decide_eq_true hw) hname]
  · intro h b
    ext1
    · funext f
      simp only [expected,h]
    · funext i
      simp only [expected,h]
    · funext n
      simp only [expected,h]

def slip : List Element → Option (List Element × Item × List Element)
  | [] => none
  | [.pad] => none
  | .pad :: .pad::es => (slip es).map fun (pre,x,post) => (.pad :: .pad::pre,x,post)
  | .pad :: .item x::es => some ([],x,es)
  | .item x::es => (slip es).map fun (pre,y,post) => (.item x::pre,y,post)

variable {es : List Element}

theorem itemsOf_slip {pre post : List Element} {x : Item} (h : slip es=some (pre,x,post)) :
    itemsOf es=itemsOf pre++x::itemsOf post := by
  induction es using slip.induct generalizing pre with
  | case1 => cases h
  | case2 => cases h
  | case3 es ih =>
    obtain ⟨⟨pre',x',post'⟩,hr,heq⟩ := Option.map_eq_some_iff.mp h
    cases heq
    have hitems := ih hr
    exact hitems
  | case4 y es =>
    cases h
    rfl
  | case5 y es ih =>
    obtain ⟨⟨pre',x',post'⟩,hr,heq⟩ := Option.map_eq_some_iff.mp h
    cases heq
    rw [itemsOf,itemsOf,ih hr,cons_append]

theorem seenFrom_fuel (mem : ℕ → UInt8) {ep : ℕ} (hfuel : ep≤cp+fuel) :
    seenFrom mem ep (fuel+1) cp=seenFrom mem ep fuel cp := by
  induction fuel generalizing cp with
  | zero => rw [seenFrom,seenFrom,if_neg (by omega)]
  | succ fuel ih =>
    rw [seenFrom,seenFrom]
    split
    · split
      · rfl
      · dsimp only
        rw [ih (by omega)]
    · rfl

theorem seenFrom_congr (mem : ℕ → UInt8) {ep fuel' : ℕ} (hfuel : ep≤cp+fuel)
    (hfuel' : ep≤cp+fuel') : seenFrom mem ep fuel' cp=seenFrom mem ep fuel cp := by
  have hmore : ∀ n k, ep≤cp+n → seenFrom mem ep (n+k) cp=seenFrom mem ep n cp := by
    intro n k hn
    induction k with
    | zero => rfl
    | succ k ih => rw [←Nat.add_assoc,seenFrom_fuel mem (by omega),ih]
  rw [←hmore fuel fuel' hfuel,←hmore fuel' fuel hfuel',Nat.add_comm]

theorem seenFrom_of_le (mem : ℕ → UInt8) {ep : ℕ} (h : ep≤cp) : seenFrom mem ep fuel cp=[] := by
  cases fuel with
  | zero => rfl
  | succ fuel => rw [seenFrom,if_neg (by omega)]

theorem seenFrom_item {ep : ℕ} (hcp : cp<ep) (htag : mem cp≠tagEnd) :
    seenFrom mem ep (fuel+1) cp=⟨mem cp,bytesAt mem (cp+2) (mem (cp+1)).toNat⟩ ::
        seenFrom mem ep fuel (cp+2+(mem (cp+1)).toNat) := by
  rw [seenFrom,if_pos hcp,if_neg htag]

theorem bytesAt_append {l l' : List UInt8} (h : bytesAt mem cp (l++l').length=l++l') :
    bytesAt mem cp l.length=l ∧ bytesAt mem (cp+l.length) l'.length=l' := by
  rw [length_append,bytesAt,range_add,map_append] at h
  obtain ⟨hl,hl'⟩ := append_inj h (by simp)
  refine ⟨hl,?_⟩
  rw [map_map] at hl'
  rw [bytesAt,←hl']
  simp [comp_def,Nat.add_assoc]

theorem Holds.tail {e : Element} (h : Holds mem cp (e::es)) :
    bytesAt mem cp e.encode.length=e.encode ∧ Holds mem (cp+e.encode.length) es := by
  have hbytes := h.bytes
  have hinside := h.inside
  rw [flatMap_cons,append_assoc,length_append] at hbytes
  rw [flatMap_cons,length_append] at hinside
  have hsplit := @bytesAt_append cp mem e.encode (es.flatMap Element.encode++[tagEnd]) (by
    rw [length_append,length_append,length_singleton,←Nat.add_assoc]
    exact hbytes)
  refine ⟨hsplit.1,fun e' he' => h.valid e' (mem_cons_of_mem e he'),?_,by omega⟩
  have htail := hsplit.2
  rw [length_append,length_singleton] at htail
  exact htail

theorem firstOf_append (f : Flag) (xs ys : List Item) :
    firstOf f (xs++ys)=(firstOf f xs).or (firstOf f ys) := by
  rw [firstOf,firstOf,firstOf,find?_append]
  cases xs.find? (·.sets f) <;> rfl

theorem firstOf_pad (f : Flag) (v : List UInt8) (xs : List Item) :
    firstOf f (⟨0,v⟩::xs)=firstOf f xs := by
  rw [firstOf_cons]
  exact if_neg (by simp [Item.sets,itemOf])

theorem bytesAt_one (mem : ℕ → UInt8) (cp : ℕ) : bytesAt mem cp 1=[mem cp] := by
  simp [bytesAt]

theorem bytesAt_two (mem : ℕ → UInt8) (cp : ℕ) : bytesAt mem cp 2=[mem cp,mem (cp+1)] := by
  simp [bytesAt,range_succ]

theorem Holds.nil (h : Holds mem cp []) : mem cp=tagEnd ∧ cp<vendSize := by
  have hbytes := h.bytes
  have hinside := h.inside
  rw [flatMap_nil,length_nil,Nat.zero_add] at hbytes hinside
  rw [bytesAt_one,nil_append] at hbytes
  exact ⟨singleton_inj.mp hbytes,hinside⟩

theorem Holds.pad (h : Holds mem cp (.pad::es)) : mem cp=0 ∧ Holds mem (cp+1) es := by
  obtain ⟨hbytes,hrest⟩ := h.tail
  have hone : bytesAt mem cp 1=[0] := hbytes
  rw [bytesAt_one] at hone
  exact ⟨singleton_inj.mp hone,hrest⟩

theorem Holds.item {x : Item} (h : Holds mem cp (.item x::es)) :
    mem cp=x.tag ∧ (mem (cp+1)).toNat=x.value.length ∧
      bytesAt mem (cp+2) x.value.length=x.value ∧ Holds mem (cp+2+x.value.length) es := by
  obtain ⟨hbytes,hrest⟩ := h.tail
  obtain ⟨-,-,hlength⟩ := h.valid _ mem_cons_self
  obtain ⟨hhead,hvalue⟩ :=
    @bytesAt_append cp mem [x.tag,UInt8.ofNat x.value.length] x.value hbytes
  have htwo : [mem cp,mem (cp+1)]=[x.tag,UInt8.ofNat x.value.length] := by
    rw [←bytesAt_two]
    exact hhead
  rw [List.cons.injEq,singleton_inj] at htwo
  refine ⟨htwo.1,?_,hvalue,?_⟩
  · rw [htwo.2]
    exact UInt8.toNat_ofNat_of_lt' hlength
  · have hlen : (Element.item x).encode.length=2+x.value.length := by
      rw [Element.encode,length_cons,length_cons]
      omega
    rw [hlen,←Nat.add_assoc] at hrest
    exact hrest

theorem Holds.lt (h : Holds mem cp es) : cp<vendSize := by
  have := h.inside
  omega

def resumeAt (cp : ℕ) (pre : List Element) (x : Item) : ℕ :=
  cp+(pre.flatMap Element.encode).length+2 + x.tag.toNat

def found (mem : ℕ → UInt8) (cp : ℕ) (es : List Element) (f : Flag) : Option (List UInt8) :=
  match slip es with
  | none => firstOf f (itemsOf es)
  | some (pre,x,_) =>
    (firstOf f (itemsOf pre)).or
      (firstOf f (seenFrom mem vendSize vendSize (resumeAt cp pre x)))

theorem found_prepend {front : List Element} {xs : List Item}
    (hslip : slip (front++es)=(slip es).map fun (pre,x,post) => (front++pre,x,post))
    (hitems : ∀ l, itemsOf (front++l)=xs++itemsOf l) (f : Flag) :
    found mem cp (front++es) f =
      (firstOf f xs).or (found mem (cp+(front.flatMap Element.encode).length) es f) := by
  rw [found,found,hslip]
  cases slip es with
  | none =>
    dsimp only [Option.map_none]
    rw [hitems,firstOf_append]
  | some r =>
    obtain ⟨pre,x,post⟩ := r
    dsimp only [Option.map_some]
    have hresume : resumeAt cp (front++pre) x =
        resumeAt (cp+(front.flatMap Element.encode).length) pre x := by
      rw [resumeAt,resumeAt,flatMap_append,length_append]
      omega
    rw [hitems,firstOf_append,Option.or_assoc,hresume]

theorem firstOf_seenFrom (h : Holds mem cp es) (hfuel : vendSize≤cp+fuel) (f : Flag) :
    firstOf f (seenFrom mem vendSize fuel cp)=found mem cp es f := by
  have hlt := h.lt
  obtain ⟨fuel,rfl⟩ : ∃ k, fuel=k+1 := ⟨fuel-1,by omega⟩
  have hpad : (0 : UInt8)≠tagEnd := by decide
  induction es using slip.induct generalizing cp fuel with
  | case1 =>
    rw [seenFrom,if_pos hlt,if_pos h.nil.1]
    rfl
  | case2 =>
    -- the end tag is taken for the length, and the loop ends all the same
    obtain ⟨hzero,hrest⟩ := h.pad
    have hend : (mem (cp+1)).toNat=255 := by
      rw [hrest.nil.1]
      rfl
    have hover : vendSize≤cp+2+(mem (cp+1)).toNat := by
      rw [hend,vendSize]
      omega
    rw [seenFrom_item hlt (by rw [hzero]; exact hpad),hzero,firstOf_pad,seenFrom_of_le mem hover]
    rfl
  | case3 es ih =>
    obtain ⟨hzero,hrest⟩ := h.pad
    obtain ⟨hzero',hrest'⟩ := hrest.pad
    have hsize : (mem (cp+1)).toNat=0 := by
      rw [hzero']
      rfl
    have hprepend := @found_prepend cp mem es [.pad,.pad] [] rfl (fun _ => rfl) f
    have hlt' := hrest'.lt
    obtain ⟨k,rfl⟩ : ∃ k, fuel=k+1 := ⟨fuel-1,by omega⟩
    rw [seenFrom_item hlt (by rw [hzero]; exact hpad),hzero,firstOf_pad,hsize]
    exact (ih hrest' hlt' k (by omega)).trans hprepend.symm
  | case4 x es =>
    obtain ⟨hzero,hrest⟩ := h.pad
    rw [seenFrom_item hlt (by rw [hzero]; exact hpad),hzero,firstOf_pad,hrest.item.1]
    have hcongr := @seenFrom_congr (cp+2 + x.tag.toNat) vendSize mem vendSize fuel (by omega)
      (by omega)
    rw [hcongr]
    rfl
  | case5 x es ih =>
    obtain ⟨htag,hsize,hvalue,hrest⟩ := h.item
    obtain ⟨-,hend,-⟩ := h.valid _ mem_cons_self
    have hprepend := @found_prepend cp mem es [.item x] [x] rfl (fun _ => rfl) f
    have hlen : (flatMap Element.encode [Element.item x]).length=2+x.value.length := by
      rw [flatMap_singleton,Element.encode,length_cons,length_cons]
      omega
    have hlt' := hrest.lt
    obtain ⟨k,rfl⟩ : ∃ k, fuel=k+1 := ⟨fuel-1,by omega⟩
    rw [hlen,←Nat.add_assoc] at hprepend
    rw [seenFrom_item hlt (by rw [htag]; exact hend),hsize,htag,hvalue,
      ←singleton_append,firstOf_append,ih hrest hlt' k (by omega)]
    exact hprepend.symm

def Resyncs (mem : ℕ → UInt8) (es : List Element) : Prop :=
  ∀ pre x post, slip es=some (pre,x,post) → ∀ f, firstOf f (itemsOf pre)=none →
    firstOf f (seenFrom mem vendSize vendSize (resumeAt 4 pre x))=firstOf f (x::itemsOf post)

theorem found_eq_iff (mem : ℕ → UInt8) (es : List Element) :
    (∀ f, found mem 4 es f=firstOf f (itemsOf es)) ↔ Resyncs mem es := by
  rw [Resyncs]
  cases hslip : slip es with
  | none => exact iff_of_true (fun f => by rw [found,hslip]) (fun _ _ _ h => by cases h)
  | some r =>
    obtain ⟨pre,x,post⟩ := r
    have hmember : ∀ f, found mem 4 es f=firstOf f (itemsOf es) ↔
        (firstOf f (itemsOf pre)=none →
          firstOf f (seenFrom mem vendSize vendSize (resumeAt 4 pre x)) =
            firstOf f (x::itemsOf post)) := by
      intro f
      rw [found,hslip,itemsOf_slip hslip,firstOf_append]
      dsimp only
      cases firstOf f (itemsOf pre) with
      | none => simp
      | some v => simp
    simp only [hmember,Option.some.injEq,Prod.mk.injEq]
    constructor
    · rintro h _ _ _ ⟨rfl,rfl,rfl⟩
      exact h
    · exact fun h => h pre x post ⟨rfl,rfl,rfl⟩

/-- `vend_rfc1048` does what a well-formed area says exactly when it finds the first items behind
pads. -/
theorem vendRfc1048_exact_iff {mem : ℕ → UInt8} {es : List Element} (h : WellFormed mem es) :
    (∀ b, (vendRfc1048 mem b).1=expected (itemsOf es) b) ↔ Resyncs mem es := by
  have hseen : ∀ f, firstOf f (seen mem)=found mem 4 es f := fun f =>
    firstOf_seenFrom h.holds (by omega) f
  simp only [vendRfc1048_fst]
  rw [expected_eq_iff]
  simp only [hseen]
  exact found_eq_iff mem es

def areaOf (bytes : List UInt8) (i : ℕ) : UInt8 := bytes.getD i 0
def maskItem : Item := ⟨1,[255,255,255,0]⟩
def twoPads : ℕ → UInt8 := areaOf [99,130,83,99,0,0,1,4,255,255,255,0,255]

theorem twoPads_wellFormed : WellFormed twoPads [.pad,.pad,.item maskItem] where
  cookie := by decide
  holds :=
    ⟨by simp [Element.Valid,maskItem,tagEnd],by decide,by decide⟩

theorem vendRfc1048_exact_iff_twoPads : WellFormed twoPads [.pad,.pad,.item maskItem] ∧
      ((∀ b, (vendRfc1048 twoPads b).1=expected (itemsOf [.pad,.pad,.item maskItem]) b) ↔
        Resyncs twoPads [.pad,.pad,.item maskItem]) :=
  ⟨twoPads_wellFormed,vendRfc1048_exact_iff twoPads_wellFormed⟩

def onePad : ℕ → UInt8 := areaOf [99,130,83,99,0,1,4,255,255,255,0,255]

theorem vendRfc1048_not_exact : WellFormed onePad [.pad,.item maskItem] ∧
      (vendRfc1048 onePad noParams).1≠expected (itemsOf [.pad,.item maskItem]) noParams := by
  refine ⟨⟨by decide, by simp [Element.Valid,maskItem,tagEnd], by decide, by decide⟩, fun h => ?_⟩
  have hmask := congrFun (congrArg Bootparams.has h) (.ip .mask)
  exact absurd hmask (by decide)

end Pmon.Bootp
