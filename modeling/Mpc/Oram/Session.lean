import Mpc.Oram.Database
import Mpc.Reconstruct

/- Sessions on the ORAM (locoram.tpp, locoram_test.cpp), in which the parties print
   the database between their accesses. `reconstruct_with_ctx` passes P0's share to
   P1 and then P1's back, and leaves the ORAMs as they are. A session as a whole is
   that of a plain table (`tables`): whatever the schedule, both parties print the
   table as the updates so far have left it (`session_prints_table`). -/
namespace Mpc
open Fifo Diamond LE

/-! reconstruct_with_ctx. -/

/-- The socket between P0 and P1. -/
def reconstructPeer (c : MPCContext) : Option NetPeer :=
  match c.role with
  | .P0 => c.peer1 <|> c.peer0
  | .P1 => c.peer0 <|> c.peer1
  | .P2 => none

/-- P0 sends its buffer first, P1 receives first. -/
def exchangeBuffers {σ : Type} (role : Role) (peer : NetPeer) (buf : List Byte) : Party σ (List Byte) :=
  if role = .P0 then do
    NetPeer.sendVector peer buf
    NetPeer.recvVector peer 8
  else do
    let bufPeer ← NetPeer.recvVector peer 8
    NetPeer.sendVector peer buf
    return bufPeer

section
variable {τ : LeafT} {nitems : Nat}

/-- The leaves a buffer holds. -/
def bufferLeaves (τ : LeafT) (nitems : Nat) (buf : List Byte) : Vector (Leaf τ) nitems :=
  ⟨(NetPeer.vecOf τ.bitsPerLeaf nitems buf).toArray, NetPeer.vecOf_length _ _ _⟩

/-- What a party makes of the other's buffer. -/
def reconstructed (share : Vector (Leaf τ) nitems) (bufPeer : List Byte) :
    Except Err (Option (Vector (Leaf τ) nitems)) :=
  if bufPeer.length ≠ (NetPeer.vecBytes share.toList).length then
    .error (.runtimeError "Locoram::reconstruct_with_ctx: received buffer size mismatch")
  else .ok (some (.zipWith (· ^^^ ·) share (bufferLeaves τ nitems bufPeer)))

/-- `Locoram::reconstruct_with_ctx`, with what it prints. -/
def Locoram.reconstructWithCtx (ctx : Bool) :
    Party (OramHost τ nitems) (Option (Vector (Leaf τ) nitems)) := do
  let c ← contextOf ctx "Missing MPCContext in Locoram::reconstruct_with_ctx"
  if c.role = .P2 then return none
  else do
    let peer ← Party.ofExcept ((reconstructPeer c).elim (.error (.runtimeError
      "Locoram::reconstruct_with_ctx: missing peer NetPeer pointer (P0↔P1)")) .ok)
    let loc ← getOram
    let bufPeer ← exchangeBuffers c.role peer (NetPeer.vecBytes loc.secretShare.toList)
    Party.ofExcept (reconstructed loc.secretShare bufPeer)

/-! Sessions. -/

/-- A command of a session. -/
inductive Command (τ : LeafT) (nitems : Nat) where
  | access (op : OramOp τ nitems)
  | reconstruct

/-- What a party sees of a command. -/
inductive Event (τ : LeafT) (nitems : Nat) where
  | returned (v : Leaf τ)
  | printed (table : Option (Vector (Leaf τ) nitems))

/-- A command at party `p`. -/
def Command.run (aes : AesKey → Block → Block) (spare : Nat) (p : Role) :
    Command τ nitems → Party (OramHost τ nitems) (Event τ nitems)
  | .access op => do
    let r ← op.run aes spare p
    return .returned r
  | .reconstruct => do
    let table ← Locoram.reconstructWithCtx true
    return .printed table

def runSession (aes : AesKey → Block → Block) (spare : Nat) (p : Role) :
    List (Command τ nitems) → Party (OramHost τ nitems) (List (Event τ nitems))
  | [] => return []
  | c :: cmds => do
    let r ← c.run aes spare p
    let rs ← runSession aes spare p cmds
    return r :: rs

/-- The tables among a party's events. -/
def printedTables : List (Event τ nitems) → List (Vector (Leaf τ) nitems)
  | [] => []
  | .returned _ :: es => printedTables es
  | .printed table :: es => table.toList ++ printedTables es

/-- The accesses of a session. -/
def accesses : List (Command τ nitems) → List (OramOp τ nitems)
  | [] => []
  | .access op :: cmds => op :: accesses cmds
  | .reconstruct :: cmds => accesses cmds

/-! The plain table. -/

/-- An access to the table: an update XORs its value into its entry. -/
def OramOp.onTable (op : OramOp τ nitems) (t : Vector (Leaf τ) nitems) : Vector (Leaf τ) nitems :=
  match op with
  | .update alpha targetValue .. => t.set alpha (t.get alpha ^^^ targetValue) alpha.isLt
  | _ => t

/-- The tables that a session prints. -/
def tables : List (Command τ nitems) → Vector (Leaf τ) nitems → List (Vector (Leaf τ) nitems)
  | [], _ => []
  | .access op :: cmds, t => tables cmds (op.onTable t)
  | .reconstruct :: cmds, t => t :: tables cmds t

/-! Sessions of the three parties as functions. -/

/-- The database the parties share. -/
def System.table (s : System τ nitems) : Vector (Leaf τ) nitems :=
  .zipWith (· ^^^ ·) (s.oram .P0).secretShare (s.oram .P1).secretShare

variable (aes : AesKey → Block → Block)

/-- What the parties see of a command, and where it leaves them. -/
def Command.step (s : System τ nitems) : Command τ nitems → (Role → Event τ nitems) × System τ nitems
  | .access op => (fun p => .returned ((op.step aes s).1 p), (op.step aes s).2)
  | .reconstruct => (fun p => .printed (opened s.table s.table p), s)

def System.session (s : System τ nitems) :
    List (Command τ nitems) → List (Role → Event τ nitems) × System τ nitems
  | [] => ([], s)
  | c :: cmds =>
    let r := c.step aes s
    let rs := System.session r.2 cmds
    (r.1 :: rs.1, rs.2)

end

/-! Reconstruction on the network. -/

/-- P0's vector goes to P1, and then P1's to P0. -/
theorem vectors_pass {β : Type} {w : Nat} {b0 b1 : List (BitVec w)} (h0 : b0.length < 2^64)
    (h1 : b1.length < 2^64) (k0 k1 : List (BitVec w) → β) (r2 : β) :
    Run (tri (.sends ((NetPeer.vecFrames b0).map (Role.P1, ·))
          (NetPeer.recvVec .P1 w fun buf => .ret (k0 buf)))
        (NetPeer.recvVec .P0 w fun buf => .sends ((NetPeer.vecFrames b1).map (Role.P0, ·)) (.ret (k1 buf)))
        (.ret r2))
      (tri (k0 b1) (k1 b0) r2)
      (tri ((NetPeer.vecFrames b1).map (.P1, ·)) ((NetPeer.vecFrames b0).map (.P0, ·)) []) := by
  have hlast : Queued (tri (NetPeer.recvVec .P1 w fun buf => .ret (k0 buf)) (.ret (k1 b0)) (.ret r2))
      (tri (fun _ => []) (tri (NetPeer.vecFrames b1) [] []) fun _ => [])
      (tri [] ((NetPeer.vecFrames b0).map (.P0, ·)) []) (tri (k0 b1) (k1 b0) r2)
      (tri ((NetPeer.vecFrames b1).map (.P1, ·)) ((NetPeer.vecFrames b0).map (.P0, ·)) []) := by
    refine queued_recvVec (q := .P1) .P0 h1 rfl (List.append_nil _).symm ?_
    refine Queued.done ?_ ?_ ?_
    · intro p
      cases p <;> rfl
    · intro p q
      cases p <;> cases q <;> rfl
    · intro p
      cases p <;> rfl
  have hback : Queued (tri (NetPeer.recvVec .P1 w fun buf => .ret (k0 buf))
        (NetPeer.recvVec .P0 w fun buf => .sends ((NetPeer.vecFrames b1).map (Role.P0, ·)) (.ret (k1 buf)))
        (.ret r2))
      (tri (tri [] (NetPeer.vecFrames b0) []) (fun _ => []) fun _ => []) (fun _ => [])
      (tri (k0 b1) (k1 b0) r2)
      (tri ((NetPeer.vecFrames b1).map (.P1, ·)) ((NetPeer.vecFrames b0).map (.P0, ·)) []) := by
    refine queued_recvVec (q := .P0) .P1 h0 rfl (List.append_nil _).symm ?_
    refine Queued.sends (P := Role) .P1 rfl (Queued.congr ?_ ?_ ?_ hlast)
    · intro p
      cases p <;> rfl
    · intro p q
      cases p
      · cases q <;> rfl
      · cases q
        · simp [filter_map_self]
        · simp [filter_map_ne (show Role.P0 ≠ .P1 by decide)]
        · simp [filter_map_ne (show Role.P0 ≠ .P2 by decide)]
      · rfl
    · intro p
      cases p <;> rfl
  refine Run.of_queued (Queued.sends .P0 rfl (Queued.congr ?_ ?_ (fun _ => rfl) hback))
  · intro p
    cases p <;> rfl
  · intro p q
    cases p
    · cases q
      · simp [filter_map_ne (show Role.P1 ≠ .P0 by decide)]
      · simp [filter_map_self]
      · simp [filter_map_ne (show Role.P1 ≠ .P2 by decide)]
    · rfl
    · rfl

section
variable {τ : LeafT} {nitems : Nat}

theorem leafBytes_length (share : Vector (Leaf τ) nitems) :
    (NetPeer.vecBytes share.toList).length = τ.sizeof * nitems := by
  have hsize : sizeBytes τ.bitsPerLeaf = τ.sizeof := by
    rw [sizeBytes, LeafT.bitsPerLeaf]
    omega
  rw [NetPeer.vecBytes_length, hsize, Vector.length_toList]

theorem bufferLeaves_bytes (share : Vector (Leaf τ) nitems) :
    bufferLeaves τ nitems (NetPeer.vecBytes share.toList) = share := by
  have h := NetPeer.vecOf_vecBytes share.toList []
  rw [List.append_nil, Vector.length_toList] at h
  apply Vector.toList_inj.mp
  exact h

/-- The other party's buffer is accepted. -/
theorem reconstructed_bytes (own other : Vector (Leaf τ) nitems) :
    reconstructed own (NetPeer.vecBytes other.toList) = .ok (some (.zipWith (· ^^^ ·) own other)) := by
  rw [reconstructed, leafBytes_length, leafBytes_length, if_neg (not_not.mpr rfl), bufferLeaves_bytes]

theorem zipWith_xor_comm (a b : Vector (Leaf τ) nitems) :
    Vector.zipWith (· ^^^ ·) a b = Vector.zipWith (· ^^^ ·) b a := by
  apply Vector.ext
  intro i hi
  rw [Vector.getElem_zipWith, Vector.getElem_zipWith]
  exact BitVec.xor_comm _ _

theorem ofExcept_run {σ α : Type} (x : Except Err α) (s : σ) : (Party.ofExcept x).run s = .ret (x, s) := by
  cases x <;> rfl

section
variable (s : System τ nitems)

/-- A party with something to do. -/
theorem reconstruct_open {p : Role} (hp : p ≠ .P2) : (Locoram.reconstructWithCtx true).run (s.mem p) =
    ((exchangeBuffers p (tri .P1 .P0 .P2 p) (NetPeer.vecBytes (s.oram p).secretShare.toList)).run
      (s.mem p)).bind (Party.andThen fun buf =>
        Party.ofExcept (reconstructed (s.oram p).secretShare buf)) := by
  cases p with
  | P0 => rfl
  | P1 => rfl
  | P2 => exact absurd rfl hp

variable (hbytes : τ.sizeof * nitems < 2^64)
include hbytes

theorem reconstruct_P0 : (Locoram.reconstructWithCtx true).run (s.mem .P0) =
    .sends ((NetPeer.vecFrames (NetPeer.vecBytes (s.oram .P0).secretShare.toList)).map (Role.P1, ·))
      (NetPeer.recvVec .P1 8 fun buf =>
        .ret (reconstructed (s.oram .P0).secretShare buf, s.mem .P0)) := by
  have hlen := (leafBytes_length (s.oram .P0).secretShare).trans_lt hbytes
  rw [reconstruct_open s (show Role.P0 ≠ .P2 by decide), exchangeBuffers, if_pos rfl, Party.bind_run, tri_P0,
    NetPeer.sendVector_run .P1 _ hlen, Proc.bind_sends, Proc.bind_ret, Party.andThen_ok,
    NetPeer.recvVector_run, Proc.bind_sends, NetPeer.recvVec_bind]
  simp only [Proc.bind_ret, Party.andThen_ok, ofExcept_run]

theorem reconstruct_P1 : (Locoram.reconstructWithCtx true).run (s.mem .P1) =
    NetPeer.recvVec .P0 8 fun buf =>
      .sends ((NetPeer.vecFrames (NetPeer.vecBytes (s.oram .P1).secretShare.toList)).map (Role.P0, ·))
        (.ret (reconstructed (s.oram .P1).secretShare buf, s.mem .P1)) := by
  have hlen := (leafBytes_length (s.oram .P1).secretShare).trans_lt hbytes
  rw [reconstruct_open s (show Role.P1 ≠ .P2 by decide), exchangeBuffers, if_neg (by decide), Party.bind_run, tri_P1,
    NetPeer.recvVector_run, NetPeer.recvVec_bind, NetPeer.recvVec_bind]
  simp only [Proc.bind_ret, Party.andThen_ok, Party.bind_run, NetPeer.sendVector_run .P0 _ hlen,
    Proc.bind_sends, Party.pure_run, ofExcept_run]

/-- P0 and P1 print the database. -/
theorem reconstruct_run : ∃ views, PartyRun (fun _ => Locoram.reconstructWithCtx true) s.mem
    (opened s.table s.table) s.mem views := by
  have hl0 := (leafBytes_length (s.oram .P0).secretShare).trans_lt hbytes
  have hl1 := (leafBytes_length (s.oram .P1).secretShare).trans_lt hbytes
  have hpass := vectors_pass hl0 hl1
    (fun buf => (reconstructed (s.oram .P0).secretShare buf, s.mem .P0))
    (fun buf => (reconstructed (s.oram .P1).secretShare buf, s.mem .P1)) (.ok none, s.mem .P2)
  have hstart : (fun p => (Locoram.reconstructWithCtx true).run (s.mem p)) = tri _ _ _ :=
    eq_tri (reconstruct_P0 s hbytes) (reconstruct_P1 s hbytes) rfl
  have hend : (fun p => ((.ok (opened s.table s.table p), s.mem p) : Except Err _ × OramHost τ nitems)) =
      tri _ _ _ := eq_tri rfl rfl rfl
  rw [reconstructed_bytes, reconstructed_bytes, zipWith_xor_comm (s.oram .P1).secretShare] at hpass
  refine ⟨tri ((NetPeer.vecFrames (NetPeer.vecBytes (s.oram .P1).secretShare.toList)).map (Role.P1, ·))
    ((NetPeer.vecFrames (NetPeer.vecBytes (s.oram .P0).secretShare.toList)).map (Role.P0, ·)) [], ?_⟩
  rw [PartyRun, hstart, hend]
  exact hpass

end

/-! Sessions on the network. -/

variable {aes : AesKey → Block → Block} {spare : Nat}

/-- Every schedule of a session settles in its run. -/
theorem session_run (aes : AesKey → Block → Block) (hsized : Sized τ nitems spare) (hbytes : τ.sizeof * nitems < 2^64)
    (cmds : List (Command τ nitems)) (s : System τ nitems) (updated : Bool)
    (h : ReadsAfterUpdate updated (accesses cmds))
    (hup : updated = true → ∀ p, (s.oram p).updateVals ≠ []) :
    ∃ views, PartyRun (fun p => runSession aes spare p cmds) s.mem
      (fun p => (s.session aes cmds).1.map (· p)) (s.session aes cmds).2.mem views := by
  induction cmds generalizing s updated with
  | nil => exact ⟨_, PartyRun.pure _ _⟩
  | cons c cmds ih =>
    cases c with
    | access op =>
      obtain ⟨hready, updated', hops, hup'⟩ := step_updateVals aes s op h hup
      obtain ⟨v, hrun⟩ := op_run aes s hsized op hready
      obtain ⟨w, hrest⟩ := ih (op.step aes s).2 updated' hops hup'
      have hevent := hrun.map fun _ r => (Event.returned r : Event τ nitems)
      exact ⟨_, hevent.bind (hrest.map fun p es => .returned ((op.step aes s).1 p) :: es)⟩
    | reconstruct =>
      obtain ⟨v, hrun⟩ := reconstruct_run s hbytes
      obtain ⟨w, hrest⟩ := ih s updated h hup
      have hevent := hrun.map fun _ t => (Event.printed t : Event τ nitems)
      exact ⟨_, hevent.bind (hrest.map fun p es => .printed (opened s.table s.table p) :: es)⟩

/-! The database and the plain table. -/

theorem table_get (s : System τ nitems) (j : Fin nitems) : s.table.get j = s.entry j :=
  Vector.getElem_zipWith j.isLt

/-- An access that loads no share is one to the table. -/
theorem step_table (s : System τ nitems) {op : OramOp τ nitems} (h : op.isLoad = false) :
    (op.step aes s).2.table = op.onTable s.table := by
  apply Vector.ext
  intro i hi
  have hentry : ((op.step aes s).2.table).get ⟨i, hi⟩ = s.table.get ⟨i, hi⟩ ^^^ op.writes i := by
    rw [table_get, table_get, step_entry s h]
  refine hentry.trans ?_
  cases op with
  | update alpha targetValue idx index value order =>
    rw [OramOp.onTable, OramOp.writes, Vector.getElem_set]
    by_cases hia : i = alpha
    · subst hia
      rw [if_pos rfl, if_pos rfl]
    · rw [if_neg hia, if_neg (Ne.symm hia)]
      exact BitVec.xor_zero
  | _ => exact BitVec.xor_zero

/-- Both parties print the tables of the plain session. -/
theorem session_tables {cmds : List (Command τ nitems)}
    (h : ∀ op, .access op ∈ cmds → op.isLoad = false) (s : System τ nitems) (p : Role) :
    printedTables ((s.session aes cmds).1.map (· p)) =
      tri (tables cmds s.table) (tables cmds s.table) [] p := by
  induction cmds generalizing s with
  | nil => cases p <;> rfl
  | cons c cmds ih =>
    have hrest : ∀ op, .access op ∈ cmds → op.isLoad = false :=
      fun op hop => h op (List.mem_cons_of_mem c hop)
    cases c with
    | access op =>
      have hop := h op List.mem_cons_self
      calc printedTables ((s.session aes (.access op :: cmds)).1.map (· p))
          = printedTables (((op.step aes s).2.session aes cmds).1.map (· p)) := rfl
        _ = _ := ih hrest _
        _ = tri (tables cmds (op.onTable s.table)) (tables cmds (op.onTable s.table)) [] p := by
          rw [step_table s hop]
    | reconstruct =>
      calc printedTables ((s.session aes (.reconstruct :: cmds)).1.map (· p))
          = (opened s.table s.table p).toList ++ printedTables ((s.session aes cmds).1.map (· p)) := rfl
        _ = (opened s.table s.table p).toList ++ tri (tables cmds s.table) (tables cmds s.table) [] p := by
          rw [ih hrest s]
        _ = _ := by cases p <;> rfl

end

/-- Sessions. In every schedule of a session on loaded shares, P0 and P1 print at each reconstruction
    the table that started as the sum of the shares and took the updates so far, and P2 prints none. -/
theorem session_prints_table (aes : AesKey → Block → Block) {τ : LeafT} {nitems spare : Nat}
    (hsized : Sized τ nitems spare) (hbytes : τ.sizeof * nitems < 2^64) (env : Role → Env)
    (init : Role → Vector (Leaf τ) nitems) (cmds : List (Command τ nitems))
    (hloads : ∀ op, .access op ∈ cmds → op.isLoad = false)
    (hreads : ReadsAfterUpdate false (accesses cmds)) :
    let session := .access (.setShare .P0 (init .P0)) :: .access (.setShare .P1 (init .P1)) :: cmds
    let printed := tables cmds (.zipWith (· ^^^ ·) (init .P0) (init .P1))
    ∃ (events : Role → List (Event τ nitems)) (hosts : Role → OramHost τ nitems)
      (views : Role → List (Role × List Byte)),
      Settles Step
        (start fun p => (runSession aes spare p session).run ((System.make τ nitems env).mem p))
        (finished (fun p => (.ok (events p), hosts p)) views) ∧
      ∀ p, printedTables (events p) = tri printed printed [] p := by
  intro session printed
  obtain ⟨views, hrun⟩ := session_run aes hsized hbytes session (.make τ nitems env) false hreads
    fun hu => (by cases hu)
  refine ⟨_, _, views, hrun.settles, fun p => ?_⟩
  exact session_tables hloads ((System.make τ nitems env).after aes
    [.setShare .P0 (init .P0), .setShare .P1 (init .P1)]) p

/-- Eight words are printed before and after 100 is written to the third of them, and after a read. -/
theorem session_prints_table_update :
    let cmds : List (Command .uint64 8) := [.reconstruct,
      .access (.update 2 100 (fun _ => 0) (fun _ => 0) (tri 0 100 0) []), .reconstruct,
      .access (.readXShare 5 (fun _ => 0) []), .reconstruct]
    let init : Role → Vector (Leaf .uint64) 8 := tri (.replicate 8 3) (.replicate 8 1) (.replicate 8 0)
    let table := Vector.zipWith (· ^^^ ·) (init .P0) (init .P1)
    let updated := table.set 2 (table.get 2 ^^^ 100) (by decide)
    ∃ (events : Role → List (Event .uint64 8)) (hosts : Role → OramHost .uint64 8)
      (views : Role → List (Role × List Byte)),
      Settles Step
        (start fun p => (runSession (fun _ b => b) 0 p (.access (.setShare .P0 (init .P0)) ::
          .access (.setShare .P1 (init .P1)) :: cmds)).run ((System.make .uint64 8 fun _ => Env.zeros).mem p))
        (finished (fun p => (.ok (events p), hosts p)) views) ∧
      printedTables (events .P1) = [table, updated, updated] := by
  intro cmds init table updated
  have hsized : Sized .uint64 8 0 := sized_even (by decide) (by decide) (by decide) 0
  have hloads : ∀ op, .access op ∈ cmds → op.isLoad = false := by
    intro op hop
    simp only [cmds, List.mem_cons, Command.access.injEq, reduceCtorEq, false_or, or_false,
      List.not_mem_nil] at hop
    obtain rfl | rfl := hop <;> rfl
  obtain ⟨events, hosts, views, hset, hprint⟩ := session_prints_table (fun _ b => b) hsized (by decide)
    (fun _ => Env.zeros) init cmds hloads ⟨rfl, trivial⟩
  exact ⟨events, hosts, views, hset, hprint .P1⟩

end Mpc
