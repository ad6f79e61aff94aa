import JustKit.Events.Epoll
import JustKit.Events.Session

/-! `jk_event_process` with epoll. -/
namespace JustKit.Events
variable {η δ : Type} [DecidableEq η]

/-- One pass of the loop of `jk_event_context_process`. -/
def epollServe (s : Session Epoll Bool η δ) (e : EpollEvent) : Session Epoll Bool η δ :=
  let rfired : Bool := Has e.events epollin ∧ Has (s.ev.events e.fd).event revent
  let s := if rfired then s.invoke (epoll η δ) e.fd .read else s
  let node := s.ev.events e.fd
  if Has e.events epollout ∧ Has node.event wevent then
    if ¬rfired ∨ node.revHandler ≠ node.wevHandler then s.invoke (epoll η δ) e.fd .write else s
  else s

/-- `jk_event_context_process`, with the events that `epoll_wait` returns, unless it fails. -/
def epollProcess (s : Session Epoll Bool η δ) : Option (List EpollEvent) → Session Epoll Bool η δ × ℤ
  | none => (s,-1)
  | some batch => (batch.foldl epollServe s,batch.length)

end JustKit.Events
