import ServerListings.Model.SharedParser

/-!
# The connection object of the web server (listings 15-4 and 15-5)

The members of `http_conn`, its constants and enumerations, and the functions that open,
reset and close a connection. What a member function does outside the object (the epoll
table, the descriptor table, the static user count, memory mappings) is the list of
`Effect`s it returns, in program order.
-/

set_option autoImplicit false

namespace ServerListings.Model.Http

open Lib.CMem

/-- `FILENAME_LEN`. -/
def filenameLen : Nat := 200

/-- `READ_BUFFER_SIZE`. -/
def readBufferSize : Nat := 2048

/-- `WRITE_BUFFER_SIZE`. -/
def writeBufferSize : Nat := 1024

/-- `enum METHOD`. -/
inductive Method
  | get
  | post
  | head
  | put
  | delete
  | trace
  | options
  | connect
  | patch
  deriving DecidableEq, Repr, Inhabited

/-- `enum CHECK_STATE`. -/
inductive CheckState
  | checkStateRequestline
  | checkStateHeader
  | checkStateContent
  deriving DecidableEq, Repr, Inhabited

/-- `enum HTTP_CODE`. -/
inductive HttpCode
  | noRequest
  | getRequest
  | badRequest
  | noResource
  | forbiddenRequest
  | fileRequest
  | internalError
  | closedConnection
  deriving DecidableEq, Repr

/-- The fields of `struct stat` the program reads. -/
structure FileStat where
  stMode : Nat
  stSize : Nat
  deriving DecidableEq, Repr, Inhabited

/-- What an `iovec` of the program can point at. -/
inductive IovBase
  | writeBuf
  | file (address : Int)
  deriving DecidableEq, Repr, Inhabited

structure Iovec where
  base : IovBase
  len : Nat
  deriving DecidableEq, Repr, Inhabited

/-- An `http_conn` object. Pointers into the read buffer are subscripts of it, and a null
pointer is `none`. -/
structure HttpConn where
  mSockfd : Int
  mReadBuf : List UInt8
  mReadIdx : Nat
  mCheckedIdx : Nat
  mStartLine : Nat
  mWriteBuf : List UInt8
  mWriteIdx : Nat
  mCheckState : CheckState
  mMethod : Method
  mRealFile : List UInt8
  mUrl : Option Nat
  mVersion : Option Nat
  mHost : Option Nat
  mContentLength : Int
  mLinger : Bool
  mFileAddress : Int
  mFileStat : FileStat
  mIv0 : Iovec
  mIv1 : Iovec
  mIvCount : Nat
  deriving Inhabited

/-- The events a descriptor can be armed for, besides the closing events it always is. -/
inductive Interest
  | epollin
  | epollout
  deriving DecidableEq, Repr

/-- What a member function does to the rest of the process. -/
inductive Effect
  | epollAdd (fd : Int) (oneShot : Bool)
  | epollMod (fd : Int) (ev : Interest)
  | epollDel (fd : Int)
  | close (fd : Int)
  | userCount (change : Int)
  | munmap (address : Int) (length : Nat)
  deriving DecidableEq, Repr

/-- `addfd`: the descriptor is registered for `EPOLLIN`. -/
def addfd (fd : Int) (oneShot : Bool) : List Effect := [.epollAdd fd oneShot]

/-- `removefd`. -/
def removefd (fd : Int) : List Effect := [.epollDel fd, .close fd]

/-- `modfd`: arms the descriptor again, for one event. -/
def modfd (fd : Int) (ev : Interest) : List Effect := [.epollMod fd ev]

/-- `http_conn::init()`. -/
def HttpConn.init (c : HttpConn) : HttpConn :=
  { c with
    mCheckState := .checkStateRequestline
    mLinger := false
    mMethod := .get
    mUrl := none
    mVersion := none
    mContentLength := 0
    mHost := none
    mStartLine := 0
    mCheckedIdx := 0
    mReadIdx := 0
    mWriteIdx := 0
    mReadBuf := List.replicate readBufferSize 0
    mWriteBuf := List.replicate writeBufferSize 0
    mRealFile := List.replicate filenameLen 0 }

/-- `http_conn::init(sockfd, addr)`. -/
def HttpConn.initConn (c : HttpConn) (sockfd : Int) : HttpConn × List Effect :=
  let c := { c with mSockfd := sockfd }
  (c.init, addfd sockfd true ++ [.userCount 1])

/-- `http_conn::close_conn`, called with its default argument. -/
def HttpConn.closeConn (c : HttpConn) : HttpConn × List Effect :=
  if c.mSockfd ≠ -1 then
    ({ c with mSockfd := -1 }, removefd c.mSockfd ++ [.userCount (-1)])
  else
    (c, [])

/-- `http_conn::unmap`. -/
def HttpConn.unmap (c : HttpConn) : HttpConn × List Effect :=
  if c.mFileAddress ≠ 0 then
    ({ c with mFileAddress := 0 }, [.munmap c.mFileAddress c.mFileStat.stSize])
  else
    (c, [])

end ServerListings.Model.Http
