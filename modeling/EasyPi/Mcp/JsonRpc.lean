/-
# JSON-RPC messages

The message predicates of `packages/mcp/src/protocol/jsonrpc.ts`. A message is a
JSON value that passes one of them; it is not read into another type.
-/
import EasyPi.Ai.Json

namespace EasyPi.Mcp

/-- `isJsonRpcId`. The numbers of JSON text are finite. -/
def isJsonRpcId (value : JsonValue) : Bool := value.isString || value.isNumber

variable (message : JsonValue)

/-- `message.jsonrpc === "2.0"` of an object. -/
def isVersion2 : Bool := message.field? "jsonrpc" == some (.str "2.0")

def isJsonRpcRequest : Bool :=
  message.isObject && isVersion2 message && message.hasField "id" isJsonRpcId &&
    message.hasField "method" JsonValue.isString

def isJsonRpcNotification : Bool :=
  message.isObject && isVersion2 message && (message.field? "id").isNone &&
    message.hasField "method" JsonValue.isString

def isJsonRpcResponse : Bool :=
  message.isObject && isVersion2 message && message.hasField "id" isJsonRpcId &&
    if (message.field? "result").isSome then (message.field? "error").isNone
    else (message.field? "error").any fun error => error.isObject &&
      error.hasField "code" JsonValue.isNumber && error.hasField "message" JsonValue.isString

def parseJsonRpcMessage (value : JsonValue) : Option JsonValue :=
  if isJsonRpcRequest value || isJsonRpcNotification value || isJsonRpcResponse value then some value
  else none

/-- `isJsonRpcResponse(message) && message.id === requestId`. -/
def isResponseTo (requestId : JsonValue) (message : JsonValue) : Bool :=
  isJsonRpcResponse message && message.field? "id" == some requestId

def internalError : ℚ := -32603

def errorResponse (requestId : JsonValue) (code : ℚ) (message : String) : JsonValue :=
  .obj [("jsonrpc", .str "2.0"), ("id", requestId), ("error", .obj [("code", .num code), ("message", .str message)])]

theorem isResponseTo_errorResponse {requestId : JsonValue} (h : isJsonRpcId requestId) (code : ℚ) (message : String) :
    isResponseTo requestId (errorResponse requestId code message) = true := by
  simp [isResponseTo, isJsonRpcResponse, errorResponse, isVersion2, JsonValue.hasField, List.lookup_cons,
    JsonValue.isObject, JsonValue.isNumber, JsonValue.isString, h]

end EasyPi.Mcp
