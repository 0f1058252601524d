import Mathlib.Tactic.Linarith
import ZeroServ.Memcached.Answers
import ZeroServ.Memcached.Reading

/-!
# How the process ends

A turn of `mc_read` ends the process in three ways: at `exit(1)` or at an assertion where `View.safe` says so, and
with bytes written past the output buffer where `View.fits` does (`turn_ending`). So a run goes on, or ends with its
output buffer overrun, exactly when its turns are safe (`survives_iff_safe`), and no run overruns an output buffer
exactly when the answers fit (`bounded_iff_fits`); while `mc_read` waits for them to be sent they do but for a large
item's.
-/

namespace ZeroServ.Mc

open Run CString Decimal

/-- With no line complete there is room for bytes, and the next ones leave some. -/
def Conn.hasRoom (c : Conn) : Bool :=
  c.ib.r < MC_BUFFER_SIZE &&
    match c.sock with
    | .bytes bs :: _ => c.ib.r + bs.length < MC_BUFFER_SIZE
    | _ => true

section conditions

variable (hash : List UInt8 → UInt32)

/-- What `complete_nread` answers; `none` where it has no item, or the item to be linked is too large. -/
def View.completion (v : View) (env : Env) : Option Reply :=
  (v.c.item.bind v.store.heap.get).bind fun x =>
    v.c.itemComm.completion (v.store.lookup hash x.key) env (x.suffix, x.data)

/-- There is room in the input buffer for what is read, and a completed update has an item, which is not too large. -/
def View.safe (v : View) (env : Env) : Bool :=
  match v.c.state with
  | .read => v.c.ib.bytes.contains 10 || v.c.hasRoom
  | .nread =>
    if v.c.rlbytes = 0 then (v.completion hash env).isSome
    else v.c.ib.bytes ≠ [] || v.c.ib.r + v.c.rlbytes ≤ MC_BUFFER_SIZE
  | .listening | .write | .swallow | .closing | .mwrite => true

/-- What the turn answers: the answer of a command, or of a completed update. -/
def View.said (v : View) (env : Env) : Option (List UInt8) :=
  match v.c.state with
  | .read => if v.c.ib.bytes.contains 10 then v.answer hash (commandOf (nextLine v.c.ib.bytes)) env else none
  | .nread => if v.c.rlbytes = 0 then (v.completion hash env).map fun r => View.replyText r ++ crlf else none
  | .listening | .write | .swallow | .closing | .mwrite => none

/-- There is room in the output buffer for what the turn answers. -/
def View.fits (v : View) (env : Env) : Bool := (v.said hash env).all fun text => v.c.ob.r + text.length ≤ MC_BUFFER_SIZE

end conditions

variable {hash : List UInt8 → UInt32} {l : List Ptr} {m : List UInt8 → Option Value} {refs : Ptr → Nat}
  {others : Ptr → Prop} {v v' : View} {env : Env}

/-- How a turn ends. -/
def Ended (hash : List UInt8 → UInt32) (v : View) (env : Env) (r : Except End (View × Next)) : Prop :=
  match r with
  | .ok _ => v.safe hash env = true ∧ v.fits hash env = true
  | .error .overflow => v.safe hash env = true ∧ v.fits hash env = false
  | .error _ => v.safe hash env = false ∧ v.fits hash env = true

/-! ## Reading -/

/-- `try_read_network` needs room. -/
theorem tryReadNetwork_room :
    match v.tryReadNetwork with
    | .ok _ => v.c.hasRoom = true
    | .error e => v.c.hasRoom = false ∧ e = .exited := by
  by_cases hroom : v.c.ib.r < MC_BUFFER_SIZE
  · cases hs : v.c.sock with
    | nil =>
      rw [tryReadNetwork_nil hroom hs]
      simp [Conn.hasRoom, hroom, hs]
    | cons r rest =>
      by_cases hends : r.ends = true
      · obtain ⟨v', hnet, -⟩ := tryReadNetwork_ends hroom hs hends
        rw [hnet]
        cases r with
        | bytes bs => simp [Conn.hasRoom, hroom, hs, List.isEmpty_iff.mp hends]
        | eof | failed e => simp [Conn.hasRoom, hroom, hs]
      · cases r with
        | bytes bs =>
          have hne : bs ≠ [] := by
            rintro rfl
            exact hends rfl
          by_cases hfit : v.c.ib.r + bs.length < MC_BUFFER_SIZE
          · obtain ⟨v', hnet, -⟩ := tryReadNetwork_bytes hne hfit hs
            rw [hnet]
            simp [Conn.hasRoom, hroom, hs, hfit]
          · rw [tryReadNetwork_bytes_full (Nat.not_lt.mp hfit) hs]
            simp [Conn.hasRoom, hs, hfit]
        | eof => exact absurd rfl hends
        | failed e =>
          obtain rfl : e = .again := by simpa [Recv.ends] using hends
          rw [tryReadNetwork_again hroom hs]
          simp [Conn.hasRoom, hroom, hs]
  · rw [tryReadNetwork_full (Nat.not_lt.mp hroom)]
    simp [Conn.hasRoom, hroom]

/-- A turn of `conn_read`. -/
theorem read_ended (h : Stocked hash v.store l m refs) (hstate : v.c.state = .read) :
    Ended hash v env (v.turn hash env) := by
  by_cases hline : 10 ∈ v.c.ib.bytes
  · have hsafe : v.safe hash env = true := by simp [View.safe, hstate, hline]
    have hsaid : v.said hash env = v.answer hash (commandOf (nextLine v.c.ib.bytes)) env := by
      simp [View.said, hstate, hline]
    have hspec := processCommand_spec h (commandOf (nextLine v.c.ib.bytes)) env
    rw [turn_line hstate hline]
    cases hans : v.answer hash (commandOf (nextLine v.c.ib.bytes)) env with
    | none =>
      rw [hans] at hspec
      obtain ⟨comm, v', hrun, -⟩ := hspec
      rw [hrun]
      exact ⟨hsafe, by rw [View.fits, hsaid, hans, Option.all_none]⟩
    | some text =>
      rw [hans] at hspec
      by_cases hle : v.c.ob.r + text.length ≤ MC_BUFFER_SIZE
      · obtain ⟨v', hrun, -⟩ := hspec.fits hle
        rw [hrun]
        exact ⟨hsafe, by rw [View.fits, hsaid, hans, Option.all_some, decide_eq_true hle]⟩
      · rw [hspec.overflow hle]
        exact ⟨hsafe, by rw [View.fits, hsaid, hans, Option.all_some, decide_eq_false hle]⟩
  · have hsafe : v.safe hash env = v.c.hasRoom := by simp [View.safe, hstate, hline]
    have hfits : v.fits hash env = true := by simp [View.fits, View.said, hstate, hline]
    have hnet := @tryReadNetwork_room v
    rw [turn_read hstate hline]
    cases hrun : v.tryReadNetwork with
    | ok v' =>
      rw [hrun] at hnet
      exact ⟨hsafe.trans hnet, hfits⟩
    | error e =>
      rw [hrun] at hnet
      obtain ⟨hroom, rfl⟩ := hnet
      exact ⟨hsafe.trans hroom, hfits⟩

/-! ## Data -/

/-- A turn of `conn_nread` in which the update is completed. -/
theorem completed_ended (h : Holds hash v.store l m refs others v.c)
    (hmem : ∀ p, env.mem = some p → v.store.heap.get p = none)
    (hstate : v.c.state = .nread) (hrl : v.c.rlbytes = 0) : Ended hash v env (v.turn hash env) := by
  have hsafe : v.safe hash env = (v.completion hash env).isSome := by simp [View.safe, hstate, hrl]
  have hsaid : v.said hash env = (v.completion hash env).map fun r =>
    View.replyText r ++ crlf := by simp [View.said, hstate, hrl]
  have hturn : v.turn hash env = (v.completeNread hash env >>= fun v => .ok (v, if v.c.wr then .stop else .go)) := by
    rw [View.turn, hstate]
    dsimp only
    rw [if_pos hrl]
    rfl
  rw [hturn]
  cases hit : v.c.item with
  | none =>
    have hno : v.completion hash env = none := by rw [View.completion, hit]; rfl
    rw [View.completeNread, hit]
    exact ⟨hsafe.trans (by rw [hno]; rfl), by rw [View.fits, hsaid, hno]; rfl⟩
  | some it =>
    obtain ⟨hone, -⟩ := h.own hit
    obtain ⟨x, hx⟩ := h.live hone
    have hcomp : v.completion hash env = v.c.itemComm.completion (m x.key) env (x.suffix, x.data) := by
      rw [View.completion, hit, Option.bind_some, hx, Option.bind_some, h.lookup]
    have hcases := h.completeNread_cases hx hone hmem v.c.itemComm
    rw [View.completeNread, hit]
    dsimp only
    rw [← hcomp] at hcases
    cases hr : v.completion hash env with
    | none =>
      rw [hr] at hcases
      dsimp only at hcases
      rw [hcases]
      exact ⟨hsafe.trans (by rw [hr]; rfl), by rw [View.fits, hsaid, hr]; rfl⟩
    | some reply =>
      rw [hr] at hcases
      obtain ⟨⟨s', reply'⟩, hrun, rfl, -⟩ := hcases
      have hsafe₁ : v.safe hash env = true := hsafe.trans (by rw [hr]; rfl)
      have hfits : v.fits hash env = decide (v.c.ob.r + (View.replyText reply' ++ crlf).length ≤ MC_BUFFER_SIZE) := by
        rw [View.fits, hsaid, hr, Option.map_some, Option.all_some]
      rw [hrun]
      have happ := (@outString_appending { v with store := s' } (View.replyText reply')).of_ob (v := v) rfl
      change Ended hash v env (({ v with store := s' }.outString (View.replyText reply') >>= _) >>= _)
      by_cases hle : v.c.ob.r + (View.replyText reply' ++ crlf).length ≤ MC_BUFFER_SIZE
      · obtain ⟨v', hout, -⟩ := happ.fits hle
        rw [hout]
        exact ⟨hsafe₁, hfits.trans (decide_eq_true hle)⟩
      · rw [happ.overflow hle]
        exact ⟨hsafe₁, hfits.trans (decide_eq_false hle)⟩

theorem recvData_ok {r : View × Int} (hread : v.readBytes v.c.rlbytes = .ok r) : ∃ v', v.recvData = .ok v' := by
  rw [View.recvData, hread, ok_bind]
  dsimp only
  split <;> exact ⟨_, rfl⟩

/-- A turn of `conn_nread` in which data are missing. -/
theorem missing_ended (h : Holds hash v.store l m refs others v.c) (hstate : v.c.state = .nread)
    (hrl : v.c.rlbytes ≠ 0) :
    Ended hash v env (v.turn hash env) := by
  have hfits : v.fits hash env = true := by simp [View.fits, View.said, hstate, hrl]
  have hsafe : v.safe hash env = (v.c.ib.bytes ≠ [] || v.c.ib.r + v.c.rlbytes ≤ MC_BUFFER_SIZE) := by
    simp [View.safe, hstate, hrl]
  rw [View.turn, hstate]
  dsimp only
  rw [if_neg hrl]
  by_cases hne : v.c.ib.bytes ≠ []
  · -- the bytes that are missing fit the item
    obtain ⟨it, hit⟩ : ∃ it, v.c.item = some it :=
      Option.ne_none_iff_exists'.mp fun hno => hrl (h.fed.none_missing hstate hno)
    obtain ⟨x, hx, hsum⟩ := h.fed.missing hstate hit
    have hle : (v.c.ib.bytes.take v.c.rlbytes).length ≤ v.c.rlbytes := by
      rw [List.length_take]
      exact Nat.min_le_left ..
    obtain ⟨data, hdata⟩ : ∃ data, memcpyData x.data v.c.ritem (v.c.ib.bytes.take v.c.rlbytes) = .ok data := by
      refine ⟨_, if_pos ?_⟩
      rw [← Item.nbytes]
      omega
    rw [if_pos hne, copyData_ok hit hx hdata]
    exact ⟨hsafe.trans (by simp [hne]), hfits⟩
  · rw [if_neg hne]
    by_cases hroom : v.c.ib.r + v.c.rlbytes ≤ MC_BUFFER_SIZE
    · have hread : v.readBytes v.c.rlbytes = .ok (v.recv v.c.rlbytes) := by
        rw [View.readBytes, if_neg]
        · rw [Int.toNat_natCast]
        · rw [Buf.remainWrite]
          omega
      obtain ⟨v', hrun⟩ := recvData_ok hread
      rw [hrun]
      exact ⟨hsafe.trans (by simp [hroom]), hfits⟩
    · have hread : v.readBytes v.c.rlbytes = .error .exited := by
        rw [View.readBytes, if_pos]
        rw [Buf.remainWrite]
        omega
      rw [View.recvData, hread]
      exact ⟨hsafe.trans (by simp [not_not.mp hne, hroom]), hfits⟩

/-! ## Runs -/

/-- The item of a connection can be released. -/
theorem connClose_ok (h : Holds hash v.store l m refs others v.c) : ∃ v', v.connClose = .ok v' := by
  obtain ⟨s', hs'⟩ : ∃ s', release v.store v.c.item = .ok s' := by
    cases hit : v.c.item with
    | none => exact ⟨v.store, rfl⟩
    | some it =>
      obtain ⟨s', hs', -⟩ := doItemRemove_spec h.inv (Nat.lt_of_lt_of_eq Nat.one_pos (h.own hit).1.symm)
      exact ⟨s', hs'⟩
  rw [View.connClose, View.connCleanup, hs']
  exact ⟨_, rfl⟩

/-- A turn ends the process where it is not safe, or its answer does not fit. -/
theorem turn_ending (h : Holds hash v.store l m refs others v.c)
    (hmem : ∀ p, env.mem = some p → v.store.heap.get p = none) :
    Ended hash v env (v.turn hash env) := by
  cases hstate : v.c.state with
  | read => exact read_ended h.toStocked hstate
  | nread =>
    by_cases hrl : v.c.rlbytes = 0
    · exact completed_ended h hmem hstate hrl
    · exact missing_ended h hstate hrl
  | closing =>
    obtain ⟨v', hrun⟩ := connClose_ok h
    rw [View.turn, hstate]
    dsimp only
    rw [hrun]
    exact ⟨by rw [View.safe, hstate], by rw [View.fits, View.said, hstate]; rfl⟩
  | listening | write | swallow | mwrite =>
    rw [View.turn, hstate]
    exact ⟨by rw [View.safe, hstate], by rw [View.fits, View.said, hstate]; rfl⟩

/-- `mc_write` does not end the process. -/
theorem mcWrite_ok (h : Holds hash v.store l m refs others v.c) (n : Nat) : ∃ r, v.mcWrite n = .ok r := by
  rw [View.mcWrite]
  split
  · dsimp only
    split <;> exact ⟨_, rfl⟩
  · obtain ⟨v', hrun⟩ := connClose_ok h
    rw [hrun]
    exact ⟨_, rfl⟩

namespace World

variable (hash) (w : World)

/-- The callback that a call runs a turn of satisfies a condition. -/
def turning (cond : View → Env → Bool) : Call → Bool
  | .turn env => (w.running.bind w.conn).all fun c => cond (w.view c) env
  | .accept _ _ | .read _ | .write _ _ => true

/-- The process has not ended at `exit(1)`, at an assertion, or with a pointer that points at nothing. -/
def Survives : Prop := w.ended = none ∨ w.ended = some .overflow

/-- No output buffer has been overrun. -/
def Bounded : Prop := w.ended ≠ some .overflow

end World

variable {w w' : World} {fd : Fd} {c : Conn}

theorem turning_turn {cond : View → Env → Bool} (hrun : w.running = some fd) (hc : w.conn fd = some c) :
    w.turning cond (.turn env) = cond (w.view c) env := by
  rw [World.turning, hrun, Option.bind_some, hc, Option.all_some]

/-- How a step ends the process, if it does. -/
theorem step_ended {e : Call} (h : ∃ l m refs, w.Sound hash l m refs) (hs : w.step hash e = some w') :
    match w'.ended with
    | none => w.turning (View.safe hash) e = true ∧ w.turning (View.fits hash) e = true
    | some .overflow => w.turning (View.safe hash) e = true ∧ w.turning (View.fits hash) e = false
    | some _ => w.turning (View.safe hash) e = false ∧ w.turning (View.fits hash) e = true := by
  obtain ⟨l, m, refs, h⟩ := h
  obtain ⟨hended, hs⟩ := step_stepped hs
  cases hs with
  | accept sock =>
    rw [hended]
    exact ⟨rfl, rfl⟩
  | read =>
    rw [hended]
    exact ⟨rfl, rfl⟩
  | @turn fd c env hrun hc hmem =>
    have hends := turn_ending (v := w.view c) (h.holds hc) hmem
    rw [turning_turn hrun hc, turning_turn hrun hc]
    cases hturn : (w.view c).turn hash env with
    | ok r =>
      rw [hturn] at hends
      dsimp only [World.back]
      rw [hended]
      exact hends
    | error e =>
      rw [hturn] at hends
      cases e <;> exact hends
  | @write fd c n hrun hc hn =>
    obtain ⟨r, hwrite⟩ := mcWrite_ok (v := w.view c) (h.holds hc) n
    rw [hwrite]
    dsimp only [World.back]
    rw [hended]
    exact ⟨rfl, rfl⟩

/-- A run ends at `exit(1)` or at an assertion exactly when one of its turns is not safe. -/
theorem survives_iff_safe (hash : List UInt8 → UInt32) (pid : UInt32) (es : List Call) :
    AllStates (World.step hash) World.Survives (.init pid) es ↔
      AllSteps (World.step hash) (fun w e _ => w.turning (View.safe hash) e) (.init pid) es := by
  constructor
  · intro hall
    refine .of_allStates (P := fun w => (∃ l m refs, w.Sound hash l m refs) ∧ w.Survives) ?_
      ((sound_always hash pid es).and hall)
    rintro w e w' ⟨hsound, -⟩ hs ⟨-, hsurv⟩
    have hends := step_ended hsound hs
    rcases hsurv with hnone | hover
    · rw [hnone] at hends
      exact hends.1
    · rw [hover] at hends
      exact hends.1
  · intro hall
    refine (AllStates.of_invariant (I := fun w => (∃ l m refs, w.Sound hash l m refs) ∧ w.Survives)
      ⟨(sound_always hash pid []).head, .inl rfl⟩ ?_ hall).mono fun _ h => h.2
    rintro w e w' ⟨hsound, -⟩ hs hsafe
    refine ⟨sound_step hsound hs, ?_⟩
    have hends := step_ended hsound hs
    cases he : w'.ended with
    | none => exact .inl he
    | some o =>
      rw [he] at hends
      cases o with
      | overflow => exact .inr he
      | exited | fault => exact absurd (hsafe.symm.trans hends.1) nofun

/-- A client announces more data than the input buffer takes. -/
theorem announced_data_exits :
    ¬AllStates (World.step fun _ => 0) World.Survives (.init 1)
      [.accept 5 [.bytes (lit "set a 0 0 5000\r\n")], .read 5, .turn (.at 100), .turn (.at 100), .turn (.at 200)] := by
  intro h
  have hrun : (exec (World.step fun _ => 0) (.init 1)
      [.accept 5 [.bytes (lit "set a 0 0 5000\r\n")], .read 5, .turn (.at 100),
      .turn (.at 100), .turn (.at 200)]).map World.ended = some (some .exited) := by decide +kernel
  obtain ⟨w, hw, hended⟩ := Option.map_eq_some_iff.mp hrun
  rcases h.last hw with hsurv | hsurv
  · nomatch hended.symm.trans hsurv
  · nomatch hended.symm.trans hsurv

/-- A run overruns an output buffer exactly when the answer of one of its turns does not fit. -/
theorem overruns_iff_fits (hash : List UInt8 → UInt32) (pid : UInt32) (es : List Call) :
    AllStates (World.step hash) World.Bounded (.init pid) es ↔
      AllSteps (World.step hash) (fun w e _ => w.turning (View.fits hash) e) (.init pid) es := by
  constructor
  · intro hall
    refine .of_allStates (P := fun w => (∃ l m refs, w.Sound hash l m refs) ∧ w.Bounded) ?_
      ((sound_always hash pid es).and hall)
    rintro w e w' ⟨hsound, -⟩ hs ⟨-, hbound⟩
    have hends := step_ended hsound hs
    cases he : w'.ended with
    | none =>
      rw [he] at hends
      exact hends.2
    | some o =>
      rw [he] at hends
      cases o with
      | overflow => exact absurd he hbound
      | exited | fault => exact hends.2
  · intro hall
    refine (AllStates.of_invariant (I := fun w => (∃ l m refs, w.Sound hash l m refs) ∧ w.Bounded)
      ⟨(sound_always hash pid []).head, nofun⟩ ?_ hall).mono fun _ h => h.2
    rintro w e w' ⟨hsound, -⟩ hs hfits
    refine ⟨sound_step hsound hs, fun he => ?_⟩
    have hends := step_ended hsound hs
    rw [he] at hends
    exact absurd (hfits.symm.trans hends.2) nofun

/-! ## The lengths of the answers -/

theorem length_longText_le (x : UInt64) : (longText x).length ≤ 20 := by
  have hlo := @Int.le_bmod x.toNat (2 ^ 64) (by decide)
  have hhi := @Int.bmod_lt x.toNat (2 ^ 64) (by decide)
  have hdigits : (natText (Int.bmod x.toNat (2 ^ 64)).natAbs).length ≤ 19 := length_natText_le (by decide) (by omega)
  rw [longText, intText]
  split
  · rw [List.length_cons]
    omega
  · omega

theorem length_counter_le (x : UInt32) : (natText x.toNat).length ≤ 20 :=
  length_natText_le (by decide) (Nat.lt_trans x.toNat_lt (by decide))

theorem length_statLine_le {name value : List UInt8} (hn : name.length ≤ 17) (hv : value.length ≤ 20) :
    (statLine name value).length ≤ 45 := by
  have hlen : (statLine name value).length = name.length + value.length + 8 := by
    simp [statLine, crlf, lit]
    omega
  omega

/-- The reply to `stats` is short. -/
theorem length_statsText_le (v : View) : v.statsText.length ≤ 633 := by
  have hword : ∀ (name : List UInt8) (x : UInt32), name.length ≤ 17 → (statLine name (natText x.toNat)).length ≤ 45 :=
    fun _ x hn => length_statLine_le hn (length_counter_le x)
  have hlong : ∀ (name : List UInt8) (x : UInt64), name.length ≤ 17 → (statLine name (longText x)).length ≤ 45 :=
    fun _ x hn => length_statLine_le hn (length_longText_le x)
  have hsize : (statLine (lit "pointer_size") (natText 64)).length ≤ 45 := by decide
  have hend : (lit "END").length = 3 := by decide
  rw [View.statsText]
  simp only [List.length_append]
  linarith only [hsize, hend, hword (lit "pid") v.pid (by decide),
    hword (lit "curr_items") v.store.stats.currItems (by decide),
    hword (lit "total_items") v.store.stats.totalItems (by decide),
    hlong (lit "bytes") v.store.stats.currBytes (by decide),
    hword (lit "curr_connections") (v.counters.currConns - 1) (by decide),
    hword (lit "total_connections") v.counters.totalConns (by decide),
    hlong (lit "cmd_get") v.counters.getCmds (by decide),
    hlong (lit "cmd_set") v.counters.setCmds (by decide), hlong (lit "get_hits") v.counters.getHits (by decide),
    hlong (lit "get_misses") v.counters.getMisses (by decide), hlong (lit "evictions") v.counters.evictions (by decide),
    hlong (lit "bytes_read") v.counters.bytesRead (by decide),
    hlong (lit "bytes_written") v.counters.bytesWritten (by decide)]

/-- A `get` echoes the item. -/
theorem length_getAnswer (key : List UInt8) (o : Option Value) :
    (getAnswer key o).length = 5 + (o.map fun u => 6 + key.length + u.1.length + u.2.length).getD 0 := by
  cases o with
  | none => rfl
  | some u =>
    have hvalue : (lit "VALUE ").length = 6 := by decide
    have hend : (lit "END\r\n").length = 5 := by decide
    simp only [getAnswer, getReply, Option.map_some, List.flatten_cons, List.flatten_nil, List.append_nil,
      List.length_append, Option.getD_some, hvalue, hend]
    omega

/-- The turn answers a `get` with an item that does not fit an empty buffer. -/
def View.getsLarge (hash : List UInt8 → UInt32) (v : View) : Bool :=
  let tokens := (tokenizeCommand (commandOf (nextLine v.c.ib.bytes)) MAX_TOKENS).1
  v.c.state = .read && v.c.ib.bytes.contains
  10 && (tokens.length + 1 ≥ 3 && (tokens.headD [] = lit "get" || tokens.headD [] = lit "bget")) &&
    (v.store.lookup hash (tokens.getD 1 [])).any fun u => 4085 < (tokens.getD 1 []).length + u.1.length + u.2.length

theorem length_updateAnswer_le {tokens : List (List UInt8)} {errno : Errno} {mem : Option Ptr} {text : List UInt8}
    (h : updateAnswer tokens errno mem = some text) : text.length ≤ 4096 := by
  rw [updateAnswer] at h
  split at h
  · obtain rfl := Option.some.inj h
    decide
  · split at h
    · obtain rfl := Option.some.inj h
      decide
    · cases h

/-- With nothing pending in the output buffer every answer fits but that of a large item. -/
theorem fits_drained (hr : v.c.ob.r = 0) : v.fits hash env = !v.getsLarge hash := by
  have hshort : ∀ {text}, v.said hash env = some text → text.length ≤ 4096 → v.fits hash env = true := by
    intro text hsaid hle
    rw [View.fits, hsaid, Option.all_some, hr, Nat.zero_add]
    exact decide_eq_true hle
  cases hstate : v.c.state with
  | read =>
    by_cases hline : 10 ∈ v.c.ib.bytes
    · have hsaid : v.said hash env = v.answer hash (commandOf (nextLine v.c.ib.bytes)) env := by
        simp [View.said, hstate, hline]
      rw [View.answer] at hsaid
      rw [View.getsLarge]
      generalize (tokenizeCommand (commandOf (nextLine v.c.ib.bytes)) MAX_TOKENS).1 = tokens at hsaid ⊢
      by_cases hget : (tokens.length + 1 ≥ 3 && (tokens.headD [] = lit "get" || tokens.headD [] = lit "bget")) = true
      · rw [if_pos hget] at hsaid
        rw [hget, View.fits, hsaid, Option.all_some, hr, length_getAnswer, decide_eq_true hstate,
          List.contains_iff_mem.mpr hline]
        cases v.store.lookup hash (tokens.getD 1 []) with
        | none => rfl
        | some u =>
          rw [Option.map_some, Option.getD_some, Option.any_some, Bool.true_and, Bool.true_and, Bool.true_and,
            ← decide_not]
          refine decide_eq_decide.mpr ?_
          rw [MC_BUFFER_SIZE]
          omega
      · rw [if_neg hget] at hsaid
        rw [Bool.eq_false_iff.mpr hget, Bool.and_false, Bool.false_and]
        generalize (if tokens.length + 1 = 6 || tokens.length + 1 = 7 then commOf (tokens.headD []) else none) =
          kind at hsaid
        cases kind with
        | some comm =>
          dsimp only at hsaid
          cases hupd : updateAnswer tokens v.errno env.mem with
          | none => rw [View.fits, hsaid, hupd]; rfl
          | some text => exact hshort (hsaid.trans hupd) (length_updateAnswer_le hupd)
        | none =>
          dsimp only at hsaid
          split at hsaid
          · exact hshort hsaid (by decide)
          · split at hsaid
            · refine hshort hsaid ?_
              rw [List.length_append]
              exact Nat.le_trans (Nat.add_le_add_right (length_statsText_le v) _) (by decide)
            · exact hshort hsaid (by decide)
    · have hno : v.said hash env = none := by simp [View.said, hstate, hline]
      rw [View.fits, hno, View.getsLarge]
      simp [hline]
  | nread =>
    have hsmall : v.getsLarge hash = false := by simp [View.getsLarge, hstate]
    rw [hsmall]
    cases hsaid : v.said hash env with
    | none => rw [View.fits, hsaid]; rfl
    | some text =>
      refine hshort hsaid ?_
      rw [View.said, hstate] at hsaid
      dsimp only at hsaid
      obtain ⟨-, hsaid⟩ := Option.ite_none_right_eq_some.mp hsaid
      obtain ⟨reply, -, rfl⟩ := Option.map_eq_some_iff.mp hsaid
      cases reply <;> decide
  | listening | write | swallow | closing | mwrite =>
    have hno : v.said hash env = none := by rw [View.said, hstate]
    rw [View.fits, hno, View.getsLarge, hstate]
    rfl

/-! ## Pending answers -/

/-- While an answer is pending reading is disabled. -/
theorem pending_awaits : Awaits hash fun c => c.ob.r ≠ 0 where
  init := fun _ h => h rfl
  turn := by
    intro v env v' next ht hpend
    cases ht with
    | reply hstate hline hrun hans => exact .inr ⟨by dsimp only; rw [hans.conn], rfl⟩
    | await hstate hline hrun hacc =>
      obtain ⟨it, -, -, -, hc⟩ := hacc.alloc
      dsimp only at hpend
      rw [hc] at hpend
      exact .inl hpend
    | network hstate hline hstore hnet =>
      generalize v'.c = c' at hnet hpend
      cases hnet <;> exact .inl hpend
    | complete => exact .inr ⟨rfl, rfl⟩
    | copy => exact .inl hpend
    | recvd hstate hrl hemp hne hlen hs hroom hstore hc =>
      rw [hc] at hpend
      exact .inl hpend
    | failed hstate hrl hemp hs hstore hc =>
      rw [hc] at hpend
      exact .inl hpend
    | closed hstate hrun hc =>
      rw [hc] at hpend
      exact .inl hpend
    | spin => exact .inl hpend
  write := by
    intro v v' n next hwrite hnext hpend
    cases mcWrite_cases hwrite with
    | drained => exact absurd rfl hpend
    | sent => exact ⟨hpend, rfl, rfl⟩
    | closed => exact absurd rfl hnext

/-- Where `mc_read` waits for its answers to be sent they fit but for a large item's. -/
theorem fits_of_unread {e : Call} (h : w.Unread fun c => c.ob.r ≠ 0) :
    w.turning (View.fits hash) e = w.turning (fun v _ => !v.getsLarge hash) e := by
  cases e with
  | accept | read | write => rfl
  | turn env =>
    rw [World.turning, World.turning]
    cases hc : w.running.bind w.conn with
    | none => rfl
    | some c =>
      obtain ⟨fd, hrun, hconn⟩ := Option.bind_eq_some_iff.mp hc
      have hr : c.ob.r = 0 := by
        by_contra hpend
        exact (h fd c hconn hpend).2 hrun
      exact fits_drained (v := w.view c) hr

/-- No output buffer is overrun exactly when each answer fits what is left of it; where `mc_read` is called only
while reading is enabled, exactly when no `get` finds an item that does not fit an empty one. -/
theorem bounded_iff_fits (hash : List UInt8 → UInt32) (pid : UInt32) (es : List Call) :
    (AllStates (World.step hash) World.Bounded (.init pid) es ↔
      AllSteps (World.step hash) (fun w e _ => w.turning (View.fits hash) e) (.init pid) es) ∧
    (AllSteps (World.step hash) (fun w e _ => w.readsEnabled e) (.init pid) es →
      (AllStates (World.step hash) World.Bounded (.init pid) es ↔
        AllSteps (World.step hash) (fun w e _ => w.turning (fun v _ => !v.getsLarge hash) e) (.init pid) es)) := by
  refine ⟨overruns_iff_fits hash pid es, fun hreads => ?_⟩
  rw [overruns_iff_fits]
  have hstep : ∀ {w : World} {e : Call} {w' : World}, w.Unread (fun c => c.ob.r ≠ 0) → w.step hash e = some w' →
      w.readsEnabled e = true → w'.Unread fun c => c.ob.r ≠ 0 := fun h hs hr => unread_step pending_awaits h hs hr
  constructor
  · intro hall
    refine .of_invariant (I := World.Unread fun c => c.ob.r ≠ 0) nofun (fun _ _ _ h hs hc => hstep h hs hc.1)
      (fun w e _ h _ hc => ?_) (hreads.and hall)
    rw [← fits_of_unread h]
    exact hc.2
  · intro hall
    refine .of_invariant (I := World.Unread fun c => c.ob.r ≠ 0) nofun (fun _ _ _ h hs hc => hstep h hs hc.1)
      (fun w e _ h _ hc => ?_) (hreads.and hall)
    rw [fits_of_unread h]
    exact hc.2

/-- A client stores a value and gets it, and asks for the version. -/
theorem bounded_small_value :
    AllStates (World.step fun _ => 0) World.Bounded (.init 1)
      [.accept 5 [.bytes (lit "set a 0 0 1\r\nx\r\n"), .bytes (lit "get a\r\n"), .bytes (lit "version\r\n")], .read 5,
        .turn (.at 100), .turn (.at 100), .turn (.at 200), .turn (.at 200), .write 5 8, .read 5, .turn (.at 200),
        .turn (.at 200), .write 5 20, .write 5 1, .read 5, .turn (.at 200), .turn (.at 200)] :=
  ((bounded_iff_fits _ _ _).2 (by decide +kernel)).mpr (by decide +kernel)

/-- A value that fills the input buffer is stored and does not fit the output buffer with what surrounds it. -/
theorem stored_value_overruns :
    ¬AllStates (World.step fun _ => 0) World.Bounded (.init 1)
      [.accept 5 [.bytes (lit "set a 0 0 4074\r\n" ++ List.replicate 4074 120 ++ crlf), .bytes (lit "get a\r\n")],
        .read 5,
        .turn (.at 100), .turn (.at 100), .turn (.at 200), .turn (.at 200), .write 5 8, .read 5, .turn (.at 200),
        .turn (.at 200)] := by
  intro h
  have hrun : (exec (World.step fun _ => 0) (.init 1)
      [.accept 5 [.bytes (lit "set a 0 0 4074\r\n" ++ List.replicate 4074 120 ++ crlf), .bytes (lit "get a\r\n")],
        .read 5,
        .turn (.at 100), .turn (.at 100), .turn (.at 200), .turn (.at 200), .write 5 8, .read 5, .turn (.at 200),
        .turn (.at 200)]).map World.ended = some (some .overflow) := by decide +kernel
  obtain ⟨w, hw, hended⟩ := Option.map_eq_some_iff.mp hrun
  exact h.last hw hended

end ZeroServ.Mc
