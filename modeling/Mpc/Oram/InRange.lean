import Mpc.Oram.Atomic

/- Where the reads of P0 and P1 index (locoram.tpp). After the evaluation of its key a read
   looks at the first update's value, if its index is an XShare, and prints the first
   eight elements of three vectors. So it stays in range exactly on eight items or
   more and, for an XShare, when the ORAM has been updated before
   (`reads_in_range_iff`). -/
namespace Mpc
open Fifo LE Party

section
variable {τ : LeafT} {nitems : Nat} {α β : Type} (aes : AesKey → Block → Block) (spare : Nat)

/-! Out of range. -/

theorem mapM_eq_none {f : α → Option β} {l : List α} {a : α} (ha : a ∈ l) (h : f a = none) :
    l.mapM f = none := by
  induction l with
  | nil => cases ha
  | cons b l ih =>
    rw [List.mapM_cons]
    rcases List.mem_cons.mp ha with rfl | hl
    · rw [h]
      rfl
    · cases hb : f b with
      | none => rfl
      | some c => simp only [ih hl, Option.bind_eq_bind, Option.bind_some, Option.bind_none]

theorem printEight_undefined {v : List β} (h : v.length < 8) (s : OramHost τ nitems) :
    (printEight v).run s = .ret (.error .undefined, s) := by
  have hnone : (List.range 8).mapM (fun i => v[i]?) = none :=
    mapM_eq_none (List.mem_range.mpr h) (List.getElem?_eq_none (Nat.le_refl _))
  rw [printEight, hnone]
  rfl

theorem answer_undefined (h8 : nitems < 8) (s : OramHost τ nitems) :
    (answer : Party (OramHost τ nitems) _).run s = .ret (.error .undefined, s) := by
  have htmp : (List.zipWith (· ^^^ ·) s.oram.sbvSecretShare.toList
      s.oram.sbvPeerBlinded.toList).length < 8 := by
    rw [List.length_zipWith, Vector.length_toList]
    exact (Nat.min_le_left _ _).trans_lt h8
  simp only [answer_steps, Party.bind_run, getOram_run, Proc.bind_ret, Party.andThen_ok,
    printEight_undefined htmp, Party.andThen_error]

/-- The rest of a read stays in range on eight items or more, if `term` does. -/
theorem Ref.finish_run (term : Leaf τ → Locoram τ nitems → Option (Leaf τ))
    (flags : Vector Byte nitems) (s : OramHost τ nitems) :
    ∃ loc loc' product r, loc.updateVals = s.oram.updateVals ∧
      (Ref.finish term flags).run s = .ret (r, { s with oram := loc' }) ∧
      (r ≠ .error .undefined ↔ term product loc ≠ none ∧ 8 ≤ nitems) := by
  have hlen : ∀ v : Vector (Leaf τ) nitems, v.toList.length = nitems := fun v => v.length_toList
  let wVals : Vector (Leaf τ) nitems := flags.map (·.setWidth τ.bitsPerLeaf)
  let loc := s.oram.select wVals
  let product := xorDot loc.blind.toList wVals.toList
  have hrun : (Ref.finish term flags).run s = ((Party.orUndefined (term product loc)).run
      { s with oram := loc }).bind (Party.andThen fun change => do
        modifyOram (·.cancel change)
        answer) := by
    unfold Ref.finish
    simp only [Party.bind_run, modifyOram_run, getOram_run, Proc.bind_ret, Party.andThen_ok,
      Party.ofExcept, vecAnd_ok ((hlen loc.blind).trans (hlen wVals).symm), Party.pure_run,
      loc, wVals, product]
  cases hterm : term product loc with
  | none =>
    refine ⟨loc, loc, product, .error .undefined, rfl, ?_, by simp [hterm]⟩
    rw [hrun, hterm]
    rfl
  | some change =>
    have hcancel : ((Party.orUndefined (some change)).run { s with oram := loc }).bind
        (Party.andThen fun change => do
          modifyOram (·.cancel change)
          answer) = (answer : Party (OramHost τ nitems) _).run { s with oram := loc.cancel change } := rfl
    rcases Nat.lt_or_ge nitems 8 with h8 | h8
    · refine ⟨loc, loc.cancel change, product, .error .undefined, rfl, ?_, by simp; omega⟩
      rw [hrun, hterm, hcancel, answer_undefined h8]
    · refine ⟨loc, loc.cancel change, product, .ok (loc.cancel change).answer, rfl, ?_, by simp [hterm, h8]⟩
      rw [hrun, hterm, hcancel, answer_run _ h8]

/-- A read of P0 or P1 on a key for its items, with room for what the evaluation writes. -/
theorem Ref.readWith_ends {ctx : MPCContext} (hrole : ctx.role ≠ .P2)
    (hfits : LeafT.uint64.Fits nitems spare) (h64 : nitems < 2^64) {key : DpfKey .uint64}
    (hkey : key.For nitems) (term : Leaf τ → Locoram τ nitems → Option (Leaf τ)) (order : List Bool)
    (rho : Nat) (s : OramHost τ nitems) :
    ∃ loc product r s', loc.updateVals = s.oram.updateVals ∧
      (Ref.readWith aes spare term order rho ctx).Ends s
        ((NetPeer.vecFrames (serializeDpfKey key)).map (ctx.self, ·)) r s' ∧
      (r ≠ .error .undefined ↔ term product loc ≠ none ∧ 8 ≤ nitems) := by
  obtain ⟨loc, loc', product, r, hvals, hfinish, hr⟩ :=
    Ref.finish_run term (keyFlags aes key nitems) s
  refine ⟨loc, product, r, { s with oram := loc' }, hvals, ?_, hr⟩
  have hlen : (serializeDpfKey key).length < 2^64 :=
    serialize_length_lt rfl (hkey.nitems ▸ h64) hkey.cw
  have hrun : (Ref.readWith aes spare term order rho ctx).run s =
      NetPeer.recvVec ctx.self 8 fun buffer => (Proc.ret (evalBuffer aes .uint64 nitems spare buffer, s)).bind
        (andThen fun r => Ref.finish term r.2) := by
    rw [Ref.readWith_eq aes spare hrole, Party.bind_run, recvEval_run, NetPeer.recvVec_bind]
  rw [Party.Ends, hrun, ← List.append_nil ((NetPeer.vecFrames _).map _)]
  refine NetPeer.ends_recvVec hlen ?_
  rw [evalBuffer_serialize aes nitems hfits h64 hkey.nitems hkey.cw, Proc.bind_ret, Party.andThen_ok,
    hfinish]
  exact .ret _

/-- Fed with `key`, the read ends, and not in an access out of range, whenever there is room for
    what its evaluation writes. -/
def ReadsInRange (x : Nat → Party (OramHost τ nitems) α) (key : DpfKey .uint64)
    (s : OramHost τ nitems) : Prop :=
  ∀ spare, LeafT.uint64.Fits nitems spare → ∃ r s', (x spare).Ends s
    ((NetPeer.vecFrames (serializeDpfKey key)).map (s.host.ctx.self, ·)) r s' ∧ r ≠ .error .undefined

theorem readsInRange_iff {x : Nat → Party (OramHost τ nitems) α} {key : DpfKey .uint64}
    {s : OramHost τ nitems} {C : Prop} (hpos : 0 < nitems)
    (h : ∀ spare, LeafT.uint64.Fits nitems spare → ∃ r s', (x spare).Ends s
      ((NetPeer.vecFrames (serializeDpfKey key)).map (s.host.ctx.self, ·)) r s' ∧
      (r ≠ .error .undefined ↔ C)) :
    ReadsInRange x key s ↔ C := by
  constructor
  · intro hall
    have hroom : LeafT.uint64.Fits nitems (LeafT.uint64.nodes nitems * LeafT.uint64.nodesPerLeaf) :=
      ⟨hpos, Nat.le_add_left _ _⟩
    obtain ⟨r, s', hends, hr⟩ := hall _ hroom
    obtain ⟨r', s'', hends', hr'⟩ := h _ hroom
    obtain ⟨rfl, -⟩ := Prod.mk.inj (Proc.Ends.unique hends hends')
    exact hr'.mp hr
  · intro hC spare hfits
    obtain ⟨r, s', hends, hr⟩ := h spare hfits
    exact ⟨r, s', hends, hr.mpr hC⟩

section
variable {key : DpfKey .uint64} {s : OramHost τ nitems} (hpos : 0 < nitems) (h64 : nitems < 2^64)
  (hrole : s.host.ctx.role ≠ .P2) (hkey : key.For nitems) (order : List Bool) (rho : Nat)
  (share : BitVec 64)
include hpos h64 hrole hkey

theorem readAShare_inRange_iff :
    ReadsInRange (fun spare => Ref.readAShare aes spare order rho ⟨share, true⟩) key s ↔ 8 ≤ nitems := by
  refine readsInRange_iff hpos fun spare hfits => ?_
  obtain ⟨loc, product, r, s', -, hends, hr⟩ :=
    Ref.readWith_ends aes spare hrole hfits h64 hkey aTerm order rho s
  exact ⟨r, s', hends, hr.trans (and_iff_right (Option.some_ne_none _))⟩

theorem readXShare_inRange_iff :
    ReadsInRange (fun spare => Ref.readXShare aes spare order rho ⟨share, true⟩) key s ↔
      8 ≤ nitems ∧ s.oram.updateVals ≠ [] := by
  refine readsInRange_iff hpos fun spare hfits => ?_
  obtain ⟨loc, product, r, s', hvals, hends, hr⟩ :=
    Ref.readWith_ends aes spare hrole hfits h64 hkey xTerm order rho
      { s with oram := s.oram.noteRead ⟨share, true⟩ }
  have hterm : xTerm product loc ≠ none ↔ s.oram.updateVals ≠ [] := by
    rw [xTerm, hvals]
    show (s.oram.updateVals[0]?.bind _) ≠ none ↔ _
    cases s.oram.updateVals with
    | nil => exact ⟨fun h => absurd rfl h, fun h => absurd rfl h⟩
    | cons v vs => exact iff_of_true (Option.some_ne_none _) (List.cons_ne_nil v vs)
  refine ⟨r, s', hends, ?_⟩
  rw [hr, hterm, and_comm]

end

/-! What the local steps of an operation keep of the ORAM. -/

section
variable {γ : Type} (g : Locoram τ nitems → γ)

theorem keeps_getOram :
    Keeps (fun s : OramHost τ nitems => g s.oram) (getOram : Party (OramHost τ nitems) _) :=
  .of_run fun s => ⟨_, s, getOram_run s, rfl⟩

theorem keeps_modifyOram {f : Locoram τ nitems → Locoram τ nitems} (hf : ∀ loc, g (f loc) = g loc) :
    Keeps (fun s : OramHost τ nitems => g s.oram) (modifyOram f) :=
  .of_run fun s => ⟨_, _, modifyOram_run s f, hf s.oram⟩

theorem keeps_onHost (x : Party Host α) :
    Keeps (fun s : OramHost τ nitems => g s.oram) (onHost x) := by
  intro s v r s' hend
  obtain ⟨b, v₁, v₂, -, -, hret⟩ := Proc.ends_bind.mp hend
  rw [(Prod.mk.inj (Proc.ends_ret.mp hret).2).2]

theorem keeps_printEight (v : List β) :
    Keeps (fun s : OramHost τ nitems => g s.oram) (printEight v) :=
  (Keeps.orUndefined _).bind fun _ => .pure _

theorem keeps_answer :
    Keeps (fun s : OramHost τ nitems => g s.oram) (answer : Party (OramHost τ nitems) _) := by
  rw [answer_steps]
  exact (keeps_getOram g).bind fun loc => (keeps_printEight g _).bind fun _ =>
    (keeps_printEight g _).bind fun _ => (keeps_printEight g _).bind fun _ => .pure _

/-- The receiver's part of an update, which applies the leaves of its key. -/
theorem keeps_recvAndApply (hg : ∀ loc output, g (loc.apply output) = g loc) (self : NetPeer) :
    Keeps (fun s : OramHost τ nitems => g s.oram)
      (recvAndApply aes spare self : Party (OramHost τ nitems) _) := by
  apply (Keeps.recvVector _ _).bind
  intro buffer
  apply (Keeps.orUndefined _).bind
  rintro ⟨key, -⟩
  by_cases hn : nitems = 0
  · simp only [if_pos hn]
    exact .pure _
  · simp only [if_neg hn]
    exact (Keeps.orUndefined _).bind fun _ => keeps_modifyOram g fun loc => hg loc _

theorem keeps_exchange_update (hg : ∀ loc output, g (loc.apply output) = g loc) (order : List Bool)
    (alpha : Nat) (v : Leaf τ) (valueShare : XShare 64) (m : MPCContext) :
    Keeps (fun s : OramHost τ nitems => g s.oram)
      ((Entry.update order alpha v valueShare).exchange aes spare nitems m) := by
  rw [Entry.exchange]
  cases m.role with
  | P0 => exact (keeps_recvAndApply aes spare g hg m.self).bind fun _ => .pure _
  | P1 => exact (keeps_recvAndApply aes spare g hg m.self).bind fun _ => .pure _
  | P2 => exact (keeps_onHost g _).bind fun _ => .pure _

end

/-! The first update's value, along a sequence of calls. -/

/-- The coroutine does not note an update. -/
def KeepsVals (x : Party (OramHost τ nitems) α) : Prop :=
  Keeps (fun s : OramHost τ nitems => s.oram.updateVals) x

theorem keepsVals_finish (term : Leaf τ → Locoram τ nitems → Option (Leaf τ))
    (flags : Vector Byte nitems) : KeepsVals (Ref.finish term flags) := by
  have hselect : ∀ w, KeepsVals (modifyOram (·.select w) : Party (OramHost τ nitems) Unit) :=
    fun w => keeps_modifyOram (·.updateVals) fun _ => rfl
  have hcancel : ∀ t, KeepsVals (modifyOram (·.cancel t) : Party (OramHost τ nitems) Unit) :=
    fun t => keeps_modifyOram (·.updateVals) fun _ => rfl
  exact (hselect _).bind fun _ => (keeps_getOram (·.updateVals)).bind fun loc =>
    (Keeps.ofExcept _).bind fun _ => (Keeps.orUndefined _).bind fun _ =>
    (hcancel _).bind fun _ => keeps_answer (·.updateVals)

theorem keepsVals_readWith (term : Leaf τ → Locoram τ nitems → Option (Leaf τ)) (order : List Bool)
    (rho : Nat) (ctx : MPCContext) : KeepsVals (Ref.readWith aes spare term order rho ctx) := by
  by_cases hrole : ctx.role = .P2
  · unfold Ref.readWith
    rw [hrole]
    exact (keeps_onHost (·.updateVals) _).bind fun _ => keeps_answer (·.updateVals)
  · rw [Ref.readWith_eq aes spare hrole]
    have hrecv : KeepsVals (recvEval aes .uint64 spare ctx.self nitems : Party (OramHost τ nitems) _) :=
      (Keeps.recvVector _ _).bind fun _ => (Keeps.orUndefined _).bind fun _ => .orUndefined _
    exact hrecv.bind fun r => keepsVals_finish term r.2

theorem Entry.exchange_keepsVals (c : Entry τ) (m : MPCContext) :
    KeepsVals (c.exchange aes spare nitems m) := by
  cases c with
  | readAShare order rho => exact (keepsVals_readWith aes spare aTerm order rho m).bind fun _ => .pure _
  | readXShare order rho => exact (keepsVals_readWith aes spare xTerm order rho m).bind fun _ => .pure _
  | update order alpha v valueShare =>
    exact keeps_exchange_update aes spare (·.updateVals) (fun _ _ => rfl) order alpha v valueShare m

/-- An operation leaves the noted updates where its first step put them. -/
theorem Entry.op_updateVals (c : Entry τ) (idx : Fin nitems) (share : BitVec 64)
    (s : OramHost τ nitems) : (c.op aes spare idx share true).Always s fun _ s' =>
      s'.oram.updateVals = (c.noted share s.oram).updateVals :=
  (always_congr (c.op_eq aes spare idx share s)).mpr (c.exchange_keepsVals aes spare s.host.ctx _)

/-- An update, by the entry point or by a `Ref`. -/
def OramCall.isUpdate : OramCall τ nitems → Bool
  | .entry (.update ..) .. => true
  | .ref (.update ..) .. => true
  | _ => false

/-- Some update went through. -/
def Updated (es : List (OramCall τ nitems × Except Err (Option (Leaf τ)))) : Prop :=
  ∃ e ∈ es, e.1.isUpdate = true ∧ e.2.isOk = true

theorem noted_updateVals (c : Entry τ) (share : BitVec 64) (loc : Locoram τ nitems) :
    (c.noted share loc).updateVals ≠ [] ↔
      loc.updateVals ≠ [] ∨ (OramCall.entry c share true : OramCall τ nitems).isUpdate = true := by
  cases c with
  | readAShare order rho => simp [Entry.noted, OramCall.isUpdate]
  | readXShare order rho => simp [Entry.noted, OramCall.isUpdate, Locoram.noteRead]
  | update order alpha v valueShare => simp [Entry.noted, OramCall.isUpdate, Locoram.noteUpdate]

/-- A call that ends in a value has noted an update exactly if it is one. -/
theorem OramCall.ok_updateVals (call : OramCall τ nitems) (s : OramHost τ nitems) :
    (call.run aes spare).Always s fun r s' => r.isOk = true →
      (s'.oram.updateVals ≠ [] ↔ s.oram.updateVals ≠ [] ∨ call.isUpdate = true) := by
  obtain ⟨share, v, rfl, hrun⟩ | ⟨what, hrun⟩ | ⟨c, idx, share, hrun, hcall⟩ := call.run_cases aes spare s
  · refine (always_of_run hrun).mpr ?_
    intro _
    simp [isUpdate]
  · exact (always_of_run hrun).mpr fun h => absurd h Bool.false_ne_true
  · refine (always_congr hrun).mpr ((c.op_updateVals aes spare idx share s).mono fun r s' hvals _ => ?_)
    have hupdate : call.isUpdate = (entry c share true : OramCall τ nitems).isUpdate := by
      obtain ⟨rfl, -⟩ | rfl := hcall
      · rfl
      · cases c <;> rfl
    rw [hvals, noted_updateVals, hupdate]

/-- At P0 or P1 an update's value is there exactly if some update went through. -/
theorem updateVals_of_run {host : Host} {s : OramHost τ nitems}
    {es : List (OramCall τ nitems × Except Err (Option (Leaf τ)))}
    (h : Trace.Run (OramStep aes spare) ⟨host, .make τ nitems⟩ es s) (hrole : host.ctx.role ≠ .P2) :
    s.host.ctx = host.ctx ∧ (s.oram.updateVals ≠ [] ↔ Updated es) := by
  apply h.inv (P := fun es s => s.host.ctx = host.ctx ∧ (s.oram.updateVals ≠ [] ↔ Updated es))
  · exact ⟨rfl, iff_of_false (fun h => h rfl) (fun h => List.not_mem_nil h.choose_spec.1)⟩
  · rintro es s ⟨call, r⟩ s' ⟨hctx, hes⟩ ⟨hdef, v, hend⟩
    obtain ⟨hctx', hthrown⟩ := call.run_always aes spare s v r s' hend
    have hok := call.ok_updateVals aes spare s v r s' hend
    have hlast : Updated (es ++ [(call, r)]) ↔ Updated es ∨ call.isUpdate = true ∧ r.isOk = true := by
      simp [Updated, List.mem_append, or_and_right, exists_or]
    refine ⟨hctx'.trans hctx, ?_⟩
    rw [hlast, ← hes]
    cases r with
    | ok value =>
      rw [hok rfl]
      exact or_congr_right (and_iff_left rfl).symm
    | error e =>
      cases e with
      | undefined => exact absurd rfl hdef
      | runtimeError what =>
        have hsafe : call.Safe s.host.ctx := by
          cases call with
          | setShare share => trivial
          | entry c share ctx => exact .inr (.inr (.inl (hctx ▸ hrole)))
          | ref c idx share ctx => exact .inr (.inl (hctx ▸ hrole))
        rw [hthrown ⟨what, rfl⟩ hsafe]
        simp [Except.isOk, Except.toBool]

/-- Reads of P0 and P1 from any state of an ORAM, with a key for its items: the read of an
    AShare stays in range exactly on eight items or more, the read of an XShare exactly if
    moreover some update went through before. -/
theorem reads_in_range_iff (hpos : 0 < nitems) (h64 : nitems < 2^64) {host : Host}
    (hrole : host.ctx.role ≠ .P2) {s : OramHost .uint64 nitems}
    {es : List (OramCall .uint64 nitems × Except Err (Option (Leaf .uint64)))}
    (h : Trace.Run (OramStep aes spare) ⟨host, .make .uint64 nitems⟩ es s) {key : DpfKey .uint64}
    (hkey : key.For nitems) (order : List Bool) (rho : Nat) (share : BitVec 64) :
    (ReadsInRange (fun spare => Ref.readAShare aes spare order rho ⟨share, true⟩) key s ↔ 8 ≤ nitems) ∧
    (ReadsInRange (fun spare => Ref.readXShare aes spare order rho ⟨share, true⟩) key s ↔
      8 ≤ nitems ∧ Updated es) := by
  obtain ⟨hctx, hvals⟩ := updateVals_of_run aes spare h hrole
  have hrole' : s.host.ctx.role ≠ .P2 := by rwa [hctx]
  constructor
  · exact readAShare_inRange_iff aes hpos h64 hrole' hkey order rho share
  · rw [readXShare_inRange_iff aes hpos h64 hrole' hkey order rho share, hvals]

end

/-- Before the first update the read of an XShare leaves the vectors, and so does every read of
    an ORAM of four items. -/
theorem reads_out_of_range :
    (∃ key : DpfKey .uint64, key.For 8 ∧ ¬ ReadsInRange
      (fun spare => Ref.readXShare (fun _ _ => 0) spare [] 5 ⟨3, true⟩) key
      ((System.make .uint64 8 fun _ => Env.zeros).mem .P0)) ∧
    (∃ key : DpfKey .uint64, key.For 4 ∧ ¬ ReadsInRange
      (fun spare => Ref.readAShare (fun _ _ => 0) spare [] 5 ⟨3, true⟩) key
      ((System.make .uint64 4 fun _ => Env.zeros).mem .P0)) := by
  obtain ⟨k0, k1, -, hkeys⟩ :=
    gen_keys (fun _ _ => 0) 0 (1 : Leaf .uint64) (0, 0) (show 5 < 8 by decide)
  obtain ⟨k0', k1', -, hkeys'⟩ :=
    gen_keys (fun _ _ => 0) 0 (1 : Leaf .uint64) (0, 0) (show 2 < 4 by decide)
  constructor
  · refine ⟨k0, hkeys.for0, fun h => ?_⟩
    have hiff := (readXShare_inRange_iff (τ := .uint64) (fun _ _ => 0)
      (s := (System.make .uint64 8 fun _ => Env.zeros).mem .P0) (by decide) (by decide) (by decide)
      hkeys.for0 [] 5 3).mp h
    exact absurd rfl hiff.2
  · refine ⟨k0', hkeys'.for0, fun h => ?_⟩
    have hiff := (readAShare_inRange_iff (τ := .uint64) (fun _ _ => 0)
      (s := (System.make .uint64 4 fun _ => Env.zeros).mem .P0) (by decide) (by decide) (by decide)
      hkeys'.for0 [] 5 3).mp h
    exact absurd hiff (by decide)

/-- P0 with eight items: after an update the read of an XShare stays in range. -/
theorem reads_in_range_eight :
    let c : Entry .uint64 := .update [] 2 100 ⟨42, true⟩
    let host := Host.online .P0 Env.zeros
    ∃ (key : DpfKey .uint64) (s : OramHost .uint64 8), key.For 8 ∧
      Trace.Run (OramStep (fun _ _ => 0) 0) ⟨host, .make .uint64 8⟩ [(.entry c 3 true, .ok none)] s ∧
      ReadsInRange (fun spare => Ref.readXShare (fun _ _ => 0) spare [] 5 ⟨3, true⟩) key s := by
  intro c host
  obtain ⟨key, k1, -, hkeys⟩ :=
    gen_keys (fun _ _ => 0) 0 (1 : Leaf .uint64) (0, 0) (show 5 < 8 by decide)
  have hkey : key.For 8 := hkeys.for0
  have hlen : (serializeDpfKey key).length < 2^64 := hkey.length_lt rfl (by decide)
  have hupdate : Gets (Ref.update (fun _ _ => 0) 0 [] 2 100 (3 : Fin 8) ⟨3, true⟩ ⟨42, true⟩)
      ⟨host, .make .uint64 8⟩ (serializeDpfKey key) _ _ :=
    update_gets (by decide) (sized_even (le_refl 8) rfl (by decide) 0) hkey [] 2 100 3 3 42
  have hop : Gets (c.op (fun _ _ => 0) 0 (3 : Fin 8) 3 true) ⟨host, .make .uint64 8⟩ (serializeDpfKey key)
      none _ := hupdate.bind rfl
  have hstep := OramStep.of_gets (show (3 : BitVec 64).toNat < 8 by decide) hlen hop
  have hrun := Trace.Run.single hstep
  have hiff := reads_in_range_iff (fun _ _ => 0) 0 (by decide) (by decide) (by decide) hrun hkey [] 5 3
  exact ⟨key, _, hkey, hrun, hiff.2.mpr ⟨le_refl 8, _, List.mem_singleton_self _, rfl, rfl⟩⟩

end Mpc
