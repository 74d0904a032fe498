import WsServer.Command

/-! The connection callbacks of `ws_bridge.c`, as programs. -/
namespace WsServer

def wsBridgeSendCurrentState (client : Client) : Server Unit := do
  let state ← appStateGet
  act (.sendText client ("State has been set to " ++ appStateLabel state))

/-- `on_connect`; without memory for a context the client is closed unregistered. -/
def onConnect (client : Client) : Server Unit := do
  let allocated ← act .allocate
  if !allocated then pure ()
  else do
    act (.registerClient client)
    act (.sendText client "Hello from server")
    wsBridgeSendCurrentState client

def onDisconnect (client : Client) : Server Unit := act (.unregisterClient client)

/-- `on_message` for a text frame: the payload up to its first NUL byte. -/
def onMessage (config : AppConfig) (client : Client) (payload : CText) : Server Unit := do
  let copied ← act .allocate
  if !copied then act (.sendText client "Server error: out of memory")
  else do
    let text := payload.takeWhile (· != Char.ofNat 0)
    act (.log "WS_RX" (String.ofList text))
    commandHandleText config client text

end WsServer
