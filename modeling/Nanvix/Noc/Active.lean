import Nanvix.Noc.Requests

/-! The actives of a facility: the hardware mailboxes or portals of the node and
the ports that share them. A call names a port by a descriptor that composes the
number of an active with the number of a port. `none` is a failed assertion.
A wait gives up the lock of the active while it blocks in the hardware, so it is
kept in its three parts. -/

namespace Nanvix.Noc

variable (F : Facility)

def activeValidCall (id : ℤ) : Bool :=
  decide (0 ≤ getActid F id ∧ getActid F id < F.hwMax) &&
    decide (0 ≤ getPortid F id ∧ getPortid F id < F.portNr)

/-- The entry of the port table that a descriptor names. -/
def portOf (id : ℤ) : ℕ × ℕ := ((getActid F id).toNat, (getPortid F id).toNat)

/-! ### Allocation and release of ports -/

/-- The test that `active_search` makes on an active. -/
def activeMatches (x : Active) (loc rem : ℤ) (ty : CommType) : Bool :=
  if !x.resource.used then false
  else if ty == .input && !x.resource.isReadable then false
  else if ty == .output && !x.resource.isWritable then false
  else if x.localNode ≠ loc ∨ x.remote ≠ rem then false
  else true

def activeSearch (s : Phys) (loc rem : ℤ) (ty : CommType) : Except Err ℕ :=
  match (List.range F.hwMax).find? fun i => activeMatches (s.actives i) loc rem ty with
  | some i => .ok i
  | none => .error .EBUSY

def portpoolChoosePort (s : Phys) (a : ℕ) : Except Err ℕ :=
  if (s.actives a).usedPorts < F.portNr then
    match (List.range F.portNr).find? fun i => !(s.ports (a, i)).resource.used with
    | some i => .ok i
    | none => .error .EINVAL
  else .error .EINVAL

/-- Take a free port. Neither its mbuffer nor its pool is touched. -/
def Phys.openPort (s : Phys) (a p : ℕ) : Phys :=
  (s.setPort (a, p) { s.ports (a, p) with
    requested := false
    resource := { (s.ports (a, p)).resource with used := true } }).setActive a
    { s.actives a with
      refcount := (s.actives a).refcount + 1
      usedPorts := (s.actives a).usedPorts + 1 }

/-- Give a port back. Its flags and its mbuffer stay. -/
def Phys.closePort (s : Phys) (a p : ℕ) : Phys :=
  (s.setPort (a, p) { s.ports (a, p) with
    resource := { (s.ports (a, p)).resource with used := false } }).setActive a
    { s.actives a with
      refcount := (s.actives a).refcount - 1
      usedPorts := (s.actives a).usedPorts - 1 }

/-- The port that `active_alloc` goes for: any free one for output, the one asked
for on input. -/
def choosePort (s : Phys) (a : ℕ) (portid : ℤ) : CommType → Except Err ℕ
  | .output => portpoolChoosePort F s a
  | .input => if 0 ≤ portid ∧ portid < F.portNr then .ok portid.toNat else .error .EINVAL

def activeAlloc (s : Phys) (loc rem portid : ℤ) (ty : CommType) : Except Err ℤ × Phys :=
  match activeSearch F s loc rem ty with
  | .error e => (.error e, s)
  | .ok actid =>
    match choosePort F s actid portid ty with
    | .error e => (.error e, s)
    | .ok p =>
      if (s.ports (actid, p)).resource.used then (.error .EBUSY, s)
      else (.ok (laddressCompose F actid p), s.openPort actid p)

/-- `active_release`: an input port with stored messages is not released. -/
def activeRelease (s : Phys) (id : ℤ) : Option (Except Err Unit × Phys) :=
  if !activeValidCall F id then none
  else
    let (a, p) := portOf F id
    let x := s.actives a
    let dest := laddressCompose F x.localNode (getPortid F id)
    if !x.resource.used then some (.error .EBADF, s)
    else if x.resource.isReadable && (mbufferSearch F .principal dest (-1) s).isSome then
      some (.error .EBUSY, s)
    else if (s.ports (a, p)).resource.used then some (.ok (), s.closePort a p)
    else some (.error .EINVAL, s)

/-! ### Reading -/

def doAllow (x : Active) (remote : ℤ) (env : Env) : Except Err Unit :=
  match F.kind with
  | .mailbox => .ok ()
  | .portal =>
    if x.allowed then (if x.remote ≠ remote then .error .EBUSY else .ok ())
    else if env.allowRet < 0 then .error (.hw env.allowRet)
    else .ok ()

/-- Withdraw the request of the local sender of a message, if it has one. -/
def clearSender (s : Phys) (m : Mbuffer) : Option Phys :=
  if 0 ≤ m.actid ∧ 0 ≤ m.portid then
    if m.portid < F.portNr then some (doRequestClear s m.actid.toNat m.portid.toNat) else none
  else some s

/-- Reading a stored message: entry `i` of the pool. -/
def areadStored (s : Phys) (P : Pool) (i : ℕ) (cfg : Config) (env : Env) :
    Option (Answer × Phys) :=
  match mbufferGet F (some P) i with
  | none => none
  | some k =>
    let buf := s.mbuffers k
    match clearSender F s buf with
    | none => none
    | some s =>
      match mbufferRelease F (some P) i false s with
      | some (.ok _, s) => some
          ({ ret := .ok .received
             stats := ⟨cfg.size,
               buf.latency + computeLatency s.clockError (env.clock 0) (env.clock 1)⟩
             copied := some (cfg.buffer, buf.message.data.take cfg.size) }, s)
      | _ => none

def Phys.allow (s : Phys) (a : ℕ) (remote : ℤ) : Phys :=
  s.setActive a { s.actives a with allowed := true, remote := remote }

def Phys.disallow (s : Phys) (a : ℕ) : Phys :=
  s.setActive a { s.actives a with allowed := false, remote := -1 }

/-- Attach an mbuffer of the principal pool to a port. -/
def Phys.attach (s : Phys) (ap : ℕ × ℕ) (k : ℕ) : Phys :=
  s.setPort ap { s.ports ap with mbufferid := k, mbufferpool := some .principal }

def Phys.detach (s : Phys) (ap : ℕ × ℕ) : Phys :=
  s.setPort ap { s.ports ap with mbufferid := -1, mbufferpool := none }

/-- The hardware has accepted the mbuffer `k`: the active is busy with it. -/
def Phys.lend (s : Phys) (a k : ℕ) (latency : UInt64) : Phys :=
  ((s.setMbuffer k { s.mbuffers k with latency := latency }).setActive a
    { s.actives a with resource := { (s.actives a).resource with busy := true } }).setLent a
    (some k)

/-- Setting up a hardware read on port `p` of active `a`. -/
def areadSubmit (s : Phys) (a p : ℕ) (remote : ℤ) (env : Env) : Option (Answer × Phys) :=
  let x := s.actives a
  if x.resource.busy then some ({ ret := .error .EBUSY }, s)
  else
    match doAllow F x remote env with
    | .error e => some ({ ret := .error e }, s)
    | .ok _ =>
      let s := s.allow a remote
      match mbufferAlloc F .principal s with
      | (.error e, s) => some ({ ret := .error e }, s)
      | (.ok k, s) =>
        let s := s.attach (a, p) k
        if env.hwRet < 0 then
          match mbufferRelease F (some .principal) k false s with
          | some (.ok _, s) => some ({ ret := .error (.hw env.hwRet) }, s.detach (a, p))
          | _ => none
        else
          let s := s.disallow a
          some ({ ret := .ok .success },
            s.lend a k (computeLatency s.clockError (env.clock 0) (env.clock 1)))

/-- `active_aread`. A reader that names a local source searches the auxiliary
pool only and never goes to the hardware. -/
def activeAread (s : Phys) (id : ℤ) (cfg : Config) (env : Env) : Option (Answer × Phys) :=
  if !activeValidCall F id then none
  else
    let (a, p) := portOf F id
    let remote := getActid F cfg.remoteAddr
    let commIsLocal := F.nodeIsLocal remote
    let P := if commIsLocal then Pool.aux else Pool.principal
    if !(s.ports (a, p)).resource.used then some ({ ret := .error .EBADF }, s)
    else
      match mbufferSearch F P cfg.localAddr cfg.remoteAddr s with
      | some i => areadStored F s P i cfg env
      | none =>
        if commIsLocal then some ({ ret := .error .ENOMSG }, s)
        else areadSubmit F s a p remote env

/-! ### Writing -/

/-- A freshly allocated mbuffer with the message of a call in it. -/
def Mbuffer.filled (m : Mbuffer) (cfg : Config) (bytes : List UInt8) (latency : UInt64) :
    Mbuffer :=
  { m with
    latency := latency
    message := ⟨headerConfig F m.message.header cfg, bytes ++ m.message.data.drop bytes.length⟩ }

/-- Writing to the local node: the message is stored for its reader. -/
def awriteForward (s : Phys) (a p : ℕ) (cfg : Config) (env : Env) : Option (Answer × Phys) :=
  if (s.ports (a, p)).requested then some ({ ret := .error .EBUSY }, s)
  else
    match doRequestOperation s a p with
    | .error _ => some ({ ret := .error .EBUSY }, s)
    | .ok s =>
      match mbufferAlloc F .aux s with
      | (.error e, s) => some ({ ret := .error e }, s)
      | (.ok i, s) =>
        match mbufferGet F (some .aux) i with
        | none => none
        | some k =>
          let latency := computeLatency s.clockError (env.clock 0) (env.clock 1)
          let buf := (s.mbuffers k).filled F cfg (readMem env.mem cfg.buffer cfg.size) latency
          let s := s.setMbuffer k { buf with actid := a, portid := p }
          match mbufferRelease F (some .aux) i true s with
          | none => none
          | some (_, s) => some ({ ret := .ok .received, stats := ⟨cfg.size, latency⟩ }, s)

/-- The second half of a write through the network: register, wait for the turn,
and give the mbuffer `k` to the hardware. -/
def awriteSubmit (s : Phys) (a p k : ℕ) (env : Env) : Answer × Phys :=
  let requested := if (s.ports (a, p)).requested then .ok s else doRequestOperation s a p
  match requested with
  | .error _ => ({ ret := .error .EBUSY }, s)
  | .ok s =>
    if !doRequestVerify s a p then ({ ret := .error .EBUSY }, s)
    else if (s.actives a).resource.busy then ({ ret := .error .EBUSY }, s)
    else if env.hwRet < 0 then ({ ret := .error (.hw env.hwRet) }, s)
    else ({ ret := .ok .success, sent := some (s.mbuffers k).message },
      s.lend a k (computeLatency s.clockError (env.clock 2) (env.clock 3)))

/-- Writing through the network. The message is copied only when the port has
no mbuffer attached yet. -/
def awriteRemote (s : Phys) (a p : ℕ) (cfg : Config) (env : Env) : Option (Answer × Phys) :=
  let port := s.ports (a, p)
  if port.mbufferid < 0 then
    match mbufferAlloc F .principal s with
    | (.error e, s) => some ({ ret := .error e }, s)
    | (.ok k, s) =>
      let latency := computeLatency s.clockError (env.clock 0) (env.clock 1)
      let s := s.setMbuffer k
        ((s.mbuffers k).filled F cfg (readMem env.mem cfg.buffer cfg.size) latency)
      some (awriteSubmit (s.attach (a, p) k) a p k env)
  else
    match mbufferGet F port.mbufferpool port.mbufferid with
    | none => none
    | some k => some (awriteSubmit s a p k env)

def activeAwrite (s : Phys) (id : ℤ) (cfg : Config) (env : Env) : Option (Answer × Phys) :=
  if !activeValidCall F id then none
  else
    let (a, p) := portOf F id
    let forward := F.nodeIsLocal (s.actives a).remote
    if !(s.ports (a, p)).resource.used then some ({ ret := .error .EINVAL }, s)
    else if forward && decide ((s.ports (a, p)).mbufferid < 0) then awriteForward F s a p cfg env
    else awriteRemote F s a p cfg env

/-! ### Waiting -/

/-- First section of `active_wait`: the mbuffer of the operation in flight. -/
def waitCheck (s : Phys) (id : ℤ) : Option (Except Err ℤ) :=
  if !activeValidCall F id then none
  else
    let (a, p) := portOf F id
    let x := s.actives a
    if !(s.ports (a, p)).resource.used then some (.error .EBADF)
    else if !x.resource.busy then some (.error .EBADF)
    else if (s.ports (a, p)).mbufferid < 0 then some (.error .EBADF)
    else if x.resource.isWritable && !doRequestVerify s a p then some (.error .EBADF)
    else some (.ok (s.ports (a, p)).mbufferid)

/-- `do_wait`: a read that succeeds has left the message in the lent mbuffer. -/
def hwWait (s : Phys) (a : ℕ) (env : Env) : Phys :=
  match s.lent a with
  | some k =>
    if (s.actives a).resource.isReadable ∧ env.hwRet = 0 then
      s.setMbuffer k { s.mbuffers k with message := env.arrived }
    else s
  | none => s

/-- What a completed read does with the message in mbuffer `k`: the answer, and
whether the message is kept for another port. -/
def waitReceive (s : Phys) (a k : ℕ) (cfg : Config) (env : Env) : Answer × Bool :=
  let buf := s.mbuffers k
  if headerCheck F buf.message.header cfg then
    ({ ret := .ok .success
       stats := ⟨cfg.size,
         buf.latency + computeLatency s.clockError (env.clock 2) (env.clock 3)⟩
       copied := some (cfg.buffer, buf.message.data.take cfg.size) }, false)
  else
    let q := getPortid F buf.message.header.dest
    ({ ret := .ok .again },
      if 0 ≤ q ∧ q < F.portNr then (s.ports (a, q.toNat)).resource.used else env.stray)

/-- The hardware has given the mbuffer back: the active is free again. -/
def Phys.settle (s : Phys) (a p : ℕ) : Phys :=
  ((s.detach (a, p)).setActive a
    { s.actives a with resource := { (s.actives a).resource with busy := false } }).setLent a none

/-- The end of `active_wait`: release the mbuffer and free the active. -/
def waitRelease (s : Phys) (a p : ℕ) (mbufferid : ℤ) (keep : Bool) (ans : Answer) :
    Option (Answer × Phys) :=
  match mbufferRelease F (s.ports (a, p)).mbufferpool mbufferid keep s with
  | none => none
  | some (_, s) => some (ans, s.settle a p)

/-- The time spent in the hardware is added to the latency of entry `k`. -/
def Phys.addLatency (s : Phys) (k : ℕ) (latency : UInt64) : Phys :=
  s.setMbuffer k { s.mbuffers k with latency := (s.mbuffers k).latency + latency }

/-- Second section of `active_wait`, entered with what the hardware returned. -/
def waitComplete (s : Phys) (id mbufferid ret : ℤ) (cfg : Config) (env : Env) :
    Option (Answer × Phys) :=
  let (a, p) := portOf F id
  let x := s.actives a
  if ret = 0 then
    match mbufferGet F (s.ports (a, p)).mbufferpool mbufferid with
    | none => none
    | some k =>
      let s := s.addLatency k (computeLatency s.clockError (env.clock 0) (env.clock 1))
      if x.resource.isReadable then
        let (ans, keep) := waitReceive F s a k cfg env
        waitRelease F s a p mbufferid keep ans
      else if x.resource.isWritable then
        match doRequestComplete s a p with
        | .error _ => none
        | .ok s => waitRelease F s a p mbufferid false
            { ret := .ok .success, stats := ⟨cfg.size, (s.mbuffers k).latency⟩ }
      else waitRelease F s a p mbufferid false
        { ret := .ok .success, stats := ⟨cfg.size, (s.mbuffers k).latency⟩ }
  else waitRelease F s a p mbufferid false { ret := .error (.hw ret) }

/-- `active_wait` when nothing happens between its parts. -/
def activeWait (s : Phys) (id : ℤ) (cfg : Config) (env : Env) : Option (Answer × Phys) :=
  match waitCheck F s id with
  | none => none
  | some (.error e) => some ({ ret := .error e }, s)
  | some (.ok mbufferid) =>
    waitComplete F (hwWait s (portOf F id).1 env) id mbufferid env.hwRet cfg env

end Nanvix.Noc
